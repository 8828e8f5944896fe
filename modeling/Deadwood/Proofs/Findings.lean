import Deadwood.Proofs.Lowering
import Deadwood.Proofs.Session
import Deadwood.Source.Lint

/-!
# Which source instructions are found dead

A source instruction is **removable** if it does nothing but compute its result: it cannot fail or
wait, and nobody sees it happen. It is **live** if it is needed, which is the case for all
instructions that are not removable, notes for debuggers apart, and for whatever a live one has as
an operand. Both notions (`Func.Removable`, `Func.Live`) speak of the source only.

**Theorem (`findDead_exact`).** What is found dead in a regular function are the removable
instructions that are not live, all of them and in their order.

The function is lowered, swept, and compared with what is left, so three things have to come through
the lowering.

* Effects: the names that callees are given set the removable instructions apart from all others
  (`isRoot_lowerOp?`).
* Operands: the definition that counts for the value of a site is the lowered instruction of that
  site (`Regular.lastDefines`).
* Sites: each lowered instruction leads back to its own (`origin?_lower`).

With the first two, being necessary and being live are closed under the same rules
(`Regular.necessary_iff_live`). With the third, the sites that are lost are those of the dead
instructions (`Regular.lost_sweep`).
-/

namespace Deadwood.Source

/-! ## Types that hold an interface -/

namespace Ty

/-- A value of the type holds an interface, directly or through arrays and structs. -/
inductive HoldsInterface : Ty → Prop
  | direct {t : Ty} : t.underlying = interface → HoldsInterface t
  | element {t e : Ty} : t.underlying = array e → HoldsInterface e → HoldsInterface t
  | field {t f : Ty} {fields : List Ty} : t.underlying = struct fields → f ∈ fields →
      HoldsInterface f → HoldsInterface t

theorem HoldsInterface.of_underlying {t u : Ty} (h : t.HoldsInterface)
    (hu : u.underlying = t.underlying) : u.HoldsInterface := by
  cases h with
  | direct ht => exact .direct (hu.trans ht)
  | element ht he => exact .element (hu.trans ht) he
  | field ht hf hh => exact .field (hu.trans ht) hf hh

theorem holdsInterface_underlying (t : Ty) :
    t.underlying.holdsInterface = t.holdsInterface := by
  fun_induction underlying t with
  | case1 t ih => simpa only [holdsInterface] using ih
  | case2 t ih => simpa only [holdsInterface] using ih
  | case3 => rfl
  | case4 => rfl

theorem anyHoldsInterface_iff {ts : List Ty} :
    anyHoldsInterface ts = true ↔ ∃ t ∈ ts, t.holdsInterface = true := by
  induction ts with
  | nil => simp [anyHoldsInterface]
  | cons t rest ih => simp [anyHoldsInterface, ih]

mutual

theorem HoldsInterface.of_eq_true : (t : Ty) → t.holdsInterface = true → t.HoldsInterface
  | interface, _ => .direct rfl
  | typeParam, _ => .direct rfl
  | named t, h => (of_eq_true t h).of_underlying rfl
  | synonym t, h => (of_eq_true t h).of_underlying rfl
  | array t, h => .element rfl (of_eq_true t h)
  | struct fields, h =>
    let ⟨_, hf, hh⟩ := HoldsInterface.of_any_eq_true fields h
    .field rfl hf hh

theorem HoldsInterface.of_any_eq_true : (ts : List Ty) → anyHoldsInterface ts = true →
    ∃ t ∈ ts, t.HoldsInterface
  | t :: rest, h => by
    rw [anyHoldsInterface, Bool.or_eq_true] at h
    rcases h with ht | hrest
    · exact ⟨t, List.mem_cons_self, of_eq_true t ht⟩
    · obtain ⟨u, hu, hh⟩ := of_any_eq_true rest hrest
      exact ⟨u, List.mem_cons_of_mem t hu, hh⟩

end

theorem holdsInterface_iff {t : Ty} : t.holdsInterface = true ↔ t.HoldsInterface := by
  refine ⟨HoldsInterface.of_eq_true t, fun h => ?_⟩
  induction h with
  | direct ht => rw [← holdsInterface_underlying, ht, holdsInterface]
  | element ht _ ih => rw [← holdsInterface_underlying, ht, holdsInterface, ih]
  | field ht hf _ ih =>
    rw [← holdsInterface_underlying, ht, holdsInterface, anyHoldsInterface_iff]
    exact ⟨_, hf, ih⟩

theorem isUnsigned_iff {t : Ty} :
    t.isUnsigned = true ↔ ∃ name ∈ unsignedNames, t.underlying = basic name := by
  unfold isUnsigned
  split <;> simp_all

end Ty

namespace Func

/-! ## Removable instructions -/

/-- The builtin functions whose calls have no effect of their own. -/
def pureBuiltins : List String := ["len", "cap", "real", "imag", "complex"]

/-- The instruction may go if nobody uses its result: it neither fails nor waits nor changes
anything. -/
def Removable (fn : Func) (i : Instr) : Prop :=
  match i.kind with
  | .phi | .changeType | .alloc | .convert | .changeInterface | .makeInterface | .makeClosure
  | .extract | .field => True
  | .typeAssert commaOk => commaOk = true
  | .makeMap => ∀ size, i.arg? 0 = some size → size.isConst = true
  | .unary op => op ≠ .load ∧ op ≠ .receive
  | .binary op =>
    op ≠ .div ∧ op ≠ .rem ∧
      (op = .shiftLeft ∨ op = .shiftRight → ∃ count, i.arg? 1 = some count ∧
        (count.isConst = true ∨
          ∃ name ∈ Ty.unsignedNames, (fn.typeOf count).underlying = .basic name)) ∧
      (op = .eq ∨ op = .ne → ∀ x, i.arg? 0 = some x → ¬ (fn.typeOf x).HoldsInterface)
  | .call none => ∃ name ∈ pureBuiltins, i.arg? 0 = some (.builtin name)
  | _ => False

theorem mayBeNegative_eq_false_iff (fn : Func) (count : Option Arg) :
    fn.mayBeNegative count = false ↔ ∃ a, count = some a ∧ (a.isConst = true ∨
      ∃ name ∈ Ty.unsignedNames, (fn.typeOf a).underlying = .basic name) := by
  simp only [← Ty.isUnsigned_iff]
  cases count with
  | none => simp [mayBeNegative]
  | some a =>
    rw [mayBeNegative, Bool.and_eq_false_iff, Bool.not_eq_false', Bool.not_eq_false']
    simp

theorem mayHoldInterface_eq_false_iff (fn : Func) (x : Option Arg) :
    fn.mayHoldInterface x = false ↔ ∀ a, x = some a → ¬ (fn.typeOf a).HoldsInterface := by
  simp only [← Ty.holdsInterface_iff]
  cases x <;> simp [mayHoldInterface]

theorem standIn_mem_iff {fn : Func} {i : Instr} (hphi : i.kind ≠ .phi)
    (hchange : i.kind ≠ .changeType) (hcall : ∀ method, i.kind ≠ .call method) :
    fn.standIn i ∈ constNames.names ↔ fn.Removable i := by
  have hshift := fn.mayBeNegative_eq_false_iff (i.arg? 1)
  have hcompare := fn.mayHoldInterface_eq_false_iff (i.arg? 0)
  unfold standIn Removable
  cases hkind : i.kind with
  | phi => exact absurd hkind hphi
  | changeType => exact absurd hkind hchange
  | call method => exact absurd hkind (hcall method)
  | binary op =>
    simp only [← hshift, ← hcompare]
    cases op with
    | shiftLeft | shiftRight =>
      cases fn.mayBeNegative (i.arg? 1) <;> simp [constNames, ConstSet.ofList]
    | eq | ne => cases fn.mayHoldInterface (i.arg? 0) <;> simp [constNames, ConstSet.ofList]
    | _ => simp [constNames, ConstSet.ofList, Kind.name]
  | unary op => cases op <;> simp [constNames, ConstSet.ofList, Kind.name]
  | makeMap =>
    cases i.arg? 0 with
    | none => simp [constNames, ConstSet.ofList]
    | some size => cases hsize : size.isConst <;> simp [constNames, ConstSet.ofList, hsize]
  | typeAssert commaOk => cases commaOk <;> simp [constNames, ConstSet.ofList, Kind.name]
  | _ => simp [constNames, ConstSet.ofList, Kind.name]

/-- The function that an instruction calls is not mistaken for an instruction without an effect. -/
def CalleeApart (fn : Func) (i : Instr) : Prop :=
  i.kind = .call none → ∀ called, i.arg? 0 = some called → ∀ name,
    (fn.static? called = some name → name ∉ constNames.names) ∧
      (called = .builtin name → ∀ rest, name ≠ "op:" ++ rest)

theorem mem_constNames_iff {name : String} (h : ∀ rest, name ≠ "op:" ++ rest) :
    name ∈ constNames.names ↔ name ∈ pureBuiltins := by
  have hnames : constNames.names = pureBuiltins ++
      ["Alloc", "BinOp", "UnOp", "Convert", "ChangeInterface", "MakeInterface", "MakeClosure",
        "MakeMap", "Extract", "Field", "TypeAssertOk"].map ("op:" ++ ·) := by
    decide
  rw [hnames, List.mem_append]
  refine ⟨fun hmem => hmem.resolve_right fun hop => ?_, Or.inl⟩
  obtain ⟨rest, -, hrest⟩ := List.mem_map.mp hop
  exact h rest hrest.symm

theorem invoke_not_mem_constNames (method : String) : "invoke:" ++ method ∉ constNames.names := by
  have hop : ∀ rest, "invoke:" ++ method ≠ "op:" ++ rest := by
    intro rest h
    have := congrArg String.toList h
    simp at this
  rw [mem_constNames_iff hop]
  intro hmem
  have := List.mem_map_of_mem (f := String.toList) hmem
  simp [pureBuiltins] at this

theorem calleeName_mem_iff {fn : Func} {i : Instr} {method : Option String}
    (happart : fn.CalleeApart i) (hkind : i.kind = .call method) :
    fn.calleeName method (i.arg? 0) ∈ constNames.names ↔ fn.Removable i := by
  have hdynamic : "dynamic" ∉ constNames.names := by decide
  unfold Removable calleeName
  rw [hkind]
  cases method with
  | some m => simpa using invoke_not_mem_constNames m
  | none =>
    cases hcalled : i.arg? 0 with
    | none => simpa using hdynamic
    | some called =>
      have happart := happart hkind called hcalled
      cases hstatic : fn.static? called with
      | some name =>
        have hname : name ∉ constNames.names := (happart name).1 hstatic
        have hbuiltin : ∀ name, called ≠ .builtin name := by
          rintro name rfl
          cases hstatic
        simp [hstatic, hname, hbuiltin]
      | none =>
        cases called with
        | builtin name => simpa [hstatic] using mem_constNames_iff ((happart name).2 rfl)
        | _ => simpa [hstatic] using hdynamic

/-- **The instructions that an elimination takes for roots are those that are not removable.** -/
theorem isRoot_lowerOp? {fn : Func} {b : Block} {s : Site} {i : Instr} {op : Op}
    (happart : fn.CalleeApart i) (h : fn.lowerOp? b s i = some op) :
    op.isRoot constNames.oracle = true ↔ ¬ fn.Removable i := by
  have hcall : ∀ dst name args, (Op.call dst (.named name) args).isRoot constNames.oracle = true ↔
      name ∉ constNames.names := by
    intro dst name args
    simp [Op.isRoot, ConstSet.oracle, ConstSet.contains]
  unfold lowerOp? at h
  dsimp only at h
  split at h <;> rename_i hkind <;> cases h
  case h_8.refl => rw [hcall, calleeName_mem_iff happart hkind]
  case h_9.refl =>
    have hgo : "go" ∉ constNames.names := by decide
    simp [hcall, hgo, Removable, hkind]
  case h_10.refl =>
    have hdefer : "defer" ∉ constNames.names := by decide
    simp [hcall, hdefer, Removable, hkind]
  case h_11.refl =>
    rename_i hphi _ _ _ _ hchange hnocall _
    rw [hcall, standIn_mem_iff hphi hchange hnocall]
  all_goals simp [Op.isRoot, Removable, hkind]

/-! ## Live instructions -/

/-- The sites whose instruction is needed: those with an effect of their own, notes for debuggers
apart, and those whose result is an operand of one that is needed. -/
inductive Live (fn : Func) : Site → Prop
  | effect {s : Site} {i : Instr} : fn.instr? s = some i → i.kind ≠ .debugRef → ¬ fn.Removable i →
      Live fn s
  | operand {s t : Site} {i j : Instr} : Live fn s → fn.instr? s = some i →
      some (.result t) ∈ i.args → fn.instr? t = some j → j.kind.isValue = true → Live fn t

/-- What a front end sees to: a block has each predecessor once, an instruction the operands and
successors of its kind, callees are not named like instructions, and there are names for all
values. -/
structure Regular (fn : Func) : Prop where
  few : fn.valueCount < 4294967296
  preds : ∀ b ∈ fn.blocks, b.preds.Nodup
  fits : ∀ b ∈ fn.blocks, ∀ i ∈ b.instrs, i.Fits b
  apart : ∀ b ∈ fn.blocks, ∀ i ∈ b.instrs, fn.CalleeApart i

theorem Live.exists_lowers {fn : Func} {s : Site} (hs : fn.Live s) : ∃ j, fn.Lowers s j := by
  cases hs with
  | effect hi hkind _ => exact Func.exists_lowers hi hkind
  | operand _ _ _ hj hval => exact exists_lowers_of_isValue hj hval

section

variable {fn : Func} (hreg : fn.Regular)
include hreg

/-- All that matters of a lowered instruction, in terms of its source. -/
theorem Regular.lowers {s : Site} {j : Deadwood.Instr} (h : fn.Lowers s j) :
    ∃ i, fn.instr? s = some i ∧ i.kind ≠ .debugRef ∧ j.op.result? = fn.resultAt? s ∧
      (∀ v, v ∈ j.op.refs ↔ ∃ a, some a ∈ i.args ∧ fn.valueOf? a = some v) ∧
      (j.op.isRoot constNames.oracle = true ↔ ¬ fn.Removable i) := by
  obtain ⟨b, i, op, hb, hi, hop, rfl⟩ := lowers_iff.mp h
  have hbmem : b ∈ fn.blocks := List.mem_of_getElem? hb
  have himem : i ∈ b.instrs := by
    obtain ⟨c, hc, hic⟩ := Option.bind_eq_some_iff.mp hi
    obtain rfl : b = c := Option.some.inj (hb.symm.trans hc)
    exact List.mem_of_getElem? hic
  refine ⟨i, hi, ?_, result?_lowerOp? hreg.few hi hop, fun v => ?_, ?_⟩
  · intro hkind
    rw [lowerOp?_eq_none_iff.mpr hkind] at hop
    cases hop
  · exact mem_refs_lowerOp? hreg.few (hreg.preds b hbmem) (hreg.fits b hbmem i himem) hop
  · exact isRoot_lowerOp? (hreg.apart b hbmem i himem) hop

/-- The value of a site is defined by the lowered instruction of the site and by no other. -/
theorem Regular.lastDefines {t : Site} {j : Deadwood.Instr} {v : Value} (h : fn.Lowers t j)
    (hv : fn.resultAt? t = some v) : LastDefines fn.lower.func.code v j := by
  have hresult : ∀ {s k}, fn.Lowers s k → k.op.result? = fn.resultAt? s := by
    intro s k hk
    obtain ⟨-, -, -, hr, -⟩ := hreg.lowers hk
    exact hr
  refine lastDefines_of_unique (mem_code_lower.mpr (Or.inr ⟨t, h⟩)) ((hresult h).trans hv) ?_
  intro k hk hkv
  rcases mem_code_lower.mp hk with hopen | ⟨s, hs⟩
  · -- inputs have smaller numbers than results
    obtain ⟨n, hn, rfl⟩ := mem_opening hopen
    rw [result?_input hreg.few hn] at hkv
    exact absurd (hv.trans hkv.symm) (resultAt?_ne_input hreg.few hn t)
  · have hst : Arg.result s = Arg.result t :=
      valueOf?_inj hreg.few ((hresult hs).symm.trans hkv) hv
    cases hst
    exact hs.instr_unique h

/-- Every value that a lowered instruction refers to is defined. -/
theorem Regular.resolved : Resolved constNames.oracle fn.lower.func.code := by
  intro j hj v hv hundef
  obtain ⟨k, hk, hkv⟩ := defined_lower hreg.few hj.mem hv
  exact hundef k hk hkv

theorem Regular.live_of_necessary {j : Deadwood.Instr}
    (hj : Necessary constNames.oracle fn.lower.func.code j) {s : Site} (h : fn.Lowers s j) :
    fn.Live s := by
  induction hj generalizing s with
  | root _ hroot =>
    obtain ⟨i, hi, hkind, -, -, hiff⟩ := hreg.lowers h
    exact .effect hi hkind (hiff.mp hroot)
  | @operand k j v hk hv hd ih =>
    rcases mem_code_lower.mp hk.mem with hopen | ⟨t, ht⟩
    · obtain ⟨n, -, rfl⟩ := mem_opening hopen
      cases hv
    · obtain ⟨i, hi, -, -, hrefs, -⟩ := hreg.lowers ht
      obtain ⟨i', hi', -, hresult, -, -⟩ := hreg.lowers h
      obtain ⟨a, ha, hav⟩ := (hrefs v).mp hv
      -- `v` is the value of `s`, so the operand that it stands for is the result at `s`
      have hsv : fn.resultAt? s = some v := hresult.symm.trans hd.result
      obtain rfl : a = .result s := valueOf?_inj hreg.few hav hsv
      refine .operand (ih ht) hi ha hi' ?_
      rw [← isSome_resultAt? hi', hsv, Option.isSome_some]

theorem Regular.necessary_of_live {s : Site} (hs : fn.Live s) {j : Deadwood.Instr}
    (h : fn.Lowers s j) : Necessary constNames.oracle fn.lower.func.code j := by
  induction hs generalizing j with
  | effect hi _ hnot =>
    obtain ⟨i', hi', -, -, -, hiff⟩ := hreg.lowers h
    obtain rfl := Option.some.inj (hi.symm.trans hi')
    exact .root (mem_code_lower.mpr (Or.inr ⟨_, h⟩)) (hiff.mpr hnot)
  | @operand s t i _ hs hi harg ht hval ih =>
    obtain ⟨k, hk⟩ := Live.exists_lowers hs
    obtain ⟨i', hi', -, -, hrefs, -⟩ := hreg.lowers hk
    obtain rfl := Option.some.inj (hi.symm.trans hi')
    obtain ⟨v, hv⟩ := Option.isSome_iff_exists.mp ((isSome_resultAt? ht).trans hval)
    exact .operand (ih hk) ((hrefs v).mpr ⟨_, harg, hv⟩) (hreg.lastDefines h hv)

/-- **An instruction is live exactly if its lowered one is necessary.** -/
theorem Regular.necessary_iff_live {s : Site} {j : Deadwood.Instr} (h : fn.Lowers s j) :
    Necessary constNames.oracle fn.lower.func.code j ↔ fn.Live s :=
  ⟨fun hj => hreg.live_of_necessary hj h, fun hs => hreg.necessary_of_live hs h⟩

/-- An elimination of the lowered function succeeds. -/
theorem Regular.eliminate_lower :
    (fn.lower.func.eliminate constNames.oracle).1 = .ok () := by
  exact Deadwood.Func.eliminate_of_resolved
    (fun j hj => Op.fault?_ofRule (isKnown_lower hj) _) hreg.resolved

end

/-! ## Dead instructions -/

open scoped Classical in
/-- The removable instructions that are not live, with their sites and in order. -/
noncomputable def deadInstrs (fn : Func) : List (Site × Instr) :=
  fn.instrs.filter fun p => decide (fn.Removable p.2 ∧ ¬ fn.Live p.1)

/-- What there is to report of the function: the dead instructions that stand in the source text, if
the function itself does. -/
noncomputable def deadFindings (fn : Func) : List Finding :=
  if fn.synthetic = "" then
    (fn.deadInstrs.filter fun p => decide (p.2.pos ≠ 0)).map fun p =>
      ⟨p.2.pos, "result is never used: " ++ p.2.text⟩
  else []

/-- The instructions that are swept away are lowered ones. -/
theorem filter_not_mem_sweep {fn : Func} {keep : Deadwood.Instr → Bool}
    (hkeep : ∀ j, keep j = true ↔ Necessary constNames.oracle fn.lower.func.code j) :
    fn.lower.func.code.filter (fun j => j ∉ fn.lower.func.code.filter keep) =
      (fn.lower.origins.filter fun p => !keep p.1).map (·.1) := by
  have hopening : fn.opening.filter (fun j => !keep j) = [] := by
    rw [List.filter_eq_nil_iff]
    intro j hj
    have hroot : j.op.isRoot constNames.oracle = true := by
      obtain ⟨n, -, rfl⟩ := mem_opening hj
      rfl
    have hkept : keep j = true := (hkeep j).mpr (.root (mem_code_lower.mpr (Or.inl hj)) hroot)
    simp [hkept]
  calc fn.lower.func.code.filter (fun j => j ∉ fn.lower.func.code.filter keep)
      = fn.lower.func.code.filter (fun j => !keep j) :=
        List.filter_congr fun j hj => by simp [hj]
    _ = (fn.lower.origins.map (·.1)).filter (fun j => !keep j) := by
        rw [code_lower, List.filter_append, hopening, List.nil_append]
    _ = (fn.lower.origins.filter fun p => !keep p.1).map (·.1) := by
        rw [List.filter_map]
        rfl

open scoped Classical in
/-- What becomes of one instruction: its site is lost if it is removable and not live. -/
theorem Regular.lost_lowerAt? {fn : Func} (hreg : fn.Regular) {keep : Deadwood.Instr → Bool}
    (hkeep : ∀ j, keep j = true ↔ Necessary constNames.oracle fn.lower.func.code j) {s : Site}
    {i : Instr} (hi : fn.instr? s = some i) :
    ((fn.lowerAt? s i).filter fun p => !keep p.1).map (·.2) =
      (Option.guard (fun p => decide (fn.Removable p.2 ∧ ¬ fn.Live p.1)) (s, i)).map (·.1) := by
  by_cases hnote : i.kind = .debugRef
  · have hremovable : ¬ fn.Removable i := by simp [Removable, hnote]
    have hnone : fn.lowerAt? s i = none := by
      simp [lowerAt?, lowerOp?_eq_none_iff.mpr hnote]
    simp [hnone, hremovable, Option.guard]
  · obtain ⟨j, hj⟩ := exists_lowers hi hnote
    have hsome : fn.lowerAt? s i = some (j, s) := by
      obtain ⟨b, i', op, hb, hi', hop, rfl⟩ := lowers_iff.mp hj
      obtain rfl := Option.some.inj (hi.symm.trans hi')
      exact lowerAt?_eq_some_iff.mpr ⟨b, op, hb, hop, rfl⟩
    have hlive : keep j = true ↔ fn.Live s := (hkeep j).trans (hreg.necessary_iff_live hj)
    have hremovable : ¬ fn.Live s → fn.Removable i := fun hs => by
      by_contra hnot
      exact hs (.effect hi hnote hnot)
    by_cases hs : fn.Live s
    · simp [hsome, hlive.mpr hs, hs, Option.guard]
    · have hgone : keep j = false := by simpa using mt hlive.mp hs
      simp [hsome, hgone, hs, hremovable hs, Option.guard]

/-- **The sites that a sweep loses are those of the dead instructions.** -/
theorem Regular.lost_sweep {fn : Func} (hreg : fn.Regular) {keep : Deadwood.Instr → Bool}
    (hkeep : ∀ j, keep j = true ↔ Necessary constNames.oracle fn.lower.func.code j) :
    fn.lower.lost (fn.lower.func.sweep keep) = fn.deadInstrs.map (·.1) := by
  classical
  have horigin : ∀ p ∈ fn.lower.origins.filter (fun p => !keep p.1),
      (fn.lower.origin? ∘ (·.1)) p = some p.2 :=
    fun p hp => origin?_lower (List.mem_of_mem_filter hp)
  calc fn.lower.lost (fn.lower.func.sweep keep)
      = (fn.lower.origins.filter fun p => !keep p.1).map (·.2) := by
        unfold Lowered.lost
        rw [Deadwood.Func.code_sweep, filter_not_mem_sweep hkeep, List.filterMap_map,
          List.filterMap_congr horigin, List.filterMap_eq_map']
    _ = fn.instrs.filterMap fun p =>
          ((fn.lowerAt? p.1 p.2).filter fun q => !keep q.1).map (·.2) := by
        rw [origins_lower, List.filter_filterMap, List.map_filterMap]
    _ = fn.instrs.filterMap fun p =>
          (Option.guard (fun p => decide (fn.Removable p.2 ∧ ¬ fn.Live p.1)) p).map (·.1) :=
        List.filterMap_congr fun p hp => hreg.lost_lowerAt? hkeep (mem_instrs_iff.mp hp)
    _ = fn.deadInstrs.map (·.1) := by
        unfold deadInstrs
        rw [← List.filterMap_eq_filter, List.map_filterMap]

end Func

end Deadwood.Source

/-! ## What is reported -/

namespace Deadwood

namespace Session

open Source

theorem findDead_of_settings {fn : Source.Func} (hreg : fn.Regular) {s : Session}
    {options : List Setting} {settings : Settings}
    (hset : Settings.resolve s.defaults (.oracle (some constNames.oracle) :: options) =
      .ok settings)
    (horacle : settings.oracle = some constNames.oracle)
    (hcheck : settings.verify = false ∨ fn.lower.func.malformed? = none) :
    (s.findDead options fn.lower).1.2 = .ok (fn.deadInstrs.map (·.1)) := by
  have heffective : settings.effective = constNames.oracle := by
    rw [Settings.effective, horacle, Oracle.inForce, Option.getD_some]
  have hok := hreg.eliminate_lower
  obtain ⟨keep, hkeep, hafter⟩ := Deadwood.Func.eliminate_of_ok hok
  have hrun := Settings.run_of_checked hcheck
  rw [heffective] at hrun
  have hreport : (s.eliminate (.oracle (some constNames.oracle) :: options) fn.lower.func).1 =
      settings.run fn.lower.func := by
    rw [Session.eliminate, hset]
  unfold findDead
  simp only [hreport]
  rw [show (settings.run fn.lower.func).outcome = .ok () from (congrArg Prod.fst hrun).trans hok,
    show (settings.run fn.lower.func).after = _ from (congrArg Prod.snd hrun).trans hafter]
  exact congrArg Except.ok (hreg.lost_sweep hkeep)

theorem findings_map_sites (fn : Source.Func) :
    (fn.deadInstrs.map (·.1)).filterMap
        (fun site => (fn.instr? site).bind Source.Instr.finding?) =
      (fn.deadInstrs.filter fun p => decide (p.2.pos ≠ 0)).map fun p =>
        (⟨p.2.pos, "result is never used: " ++ p.2.text⟩ : Finding) := by
  have hfinding : ∀ p ∈ fn.deadInstrs,
      ((fun site => (fn.instr? site).bind Source.Instr.finding?) ∘ (·.1)) p =
        (Option.guard (fun p => decide (p.2.pos ≠ 0)) p).map fun p =>
          (⟨p.2.pos, "result is never used: " ++ p.2.text⟩ : Finding) := by
    intro p hp
    have hi : fn.instr? p.1 = some p.2 := Func.mem_instrs_iff.mp (List.mem_of_mem_filter hp)
    by_cases hpos : p.2.pos = 0 <;> simp [hi, Source.Instr.finding?, hpos, Option.guard]
  rw [List.filterMap_map, List.filterMap_congr hfinding, ← List.map_filterMap,
    List.filterMap_eq_filter]

theorem defaults_lint (s : Session) (fn : Source.Func) : (s.lint fn).2.defaults = s.defaults := by
  unfold lint
  split
  · rfl
  · unfold findDead Session.eliminate
    dsimp only
    split <;> rfl

theorem lint_of_regular {fn : Source.Func} {s : Session}
    (h : fn.synthetic = "" →
      fn.Regular ∧ (s.defaults.verify = false ∨ fn.lower.func.malformed? = none)) :
    (s.lint fn).1 = .ok fn.deadFindings := by
  unfold lint Source.Func.deadFindings
  by_cases hsyn : fn.synthetic = ""
  · obtain ⟨hreg, hcheck⟩ := h hsyn
    have hdead : (s.findDead [] fn.lower).1.2 = .ok (fn.deadInstrs.map (·.1)) :=
      findDead_of_settings hreg rfl rfl hcheck
    simp only [hsyn, ne_eq, not_true_eq_false, if_false, if_true]
    rw [hdead]
    exact congrArg Except.ok (findings_map_sites fn)
  · simp [hsyn]

theorem lintAll_of_regular {fns : List Source.Func} {s : Session}
    (h : ∀ fn ∈ fns, fn.synthetic = "" →
      fn.Regular ∧ (s.defaults.verify = false ∨ fn.lower.func.malformed? = none)) :
    (s.lintAll fns).1 = .ok (fns.flatMap Source.Func.deadFindings) := by
  induction fns generalizing s with
  | nil => rfl
  | cons fn rest ih =>
    have hfn := lint_of_regular (h fn List.mem_cons_self)
    have hdefaults := s.defaults_lint fn
    rw [lintAll]
    generalize s.lint fn = r at hfn hdefaults
    obtain ⟨found, next⟩ := r
    obtain rfl : found = .ok fn.deadFindings := hfn
    -- the statistics have changed, but not the defaults, so the rest goes as in the old session
    have hrest : (next.lintAll rest).1 = .ok (rest.flatMap Source.Func.deadFindings) := by
      refine ih fun g hg => ?_
      rw [hdefaults]
      exact h g (List.mem_cons_of_mem fn hg)
    dsimp only
    rw [hrest]
    rfl

/-- **Exactly the dead instructions are found.** Of a regular function, the sites that are reported
are those of the removable instructions that are not live, in order, whatever the session and the
settings, as long as these keep to the names of instructions without an effect and the check is off
or passed. The findings in a program are those among them that stand in the source text. -/
theorem findDead_exact (s : Session) :
    (∀ (fn : Source.Func) (options : List Setting) (settings : Settings), fn.Regular →
      Settings.resolve s.defaults (.oracle (some constNames.oracle) :: options) = .ok settings →
      settings.oracle = some constNames.oracle →
      (settings.verify = false ∨ fn.lower.func.malformed? = none) →
      (s.findDead options fn.lower).1.2 = .ok (fn.deadInstrs.map (·.1))) ∧
    ∀ fns : List Source.Func,
      (∀ fn ∈ fns, fn.synthetic = "" →
        fn.Regular ∧ (s.defaults.verify = false ∨ fn.lower.func.malformed? = none)) →
      (s.lintAll fns).1 = .ok (fns.flatMap Source.Func.deadFindings) :=
  ⟨fun _ _ _ hreg hset horacle hcheck => findDead_of_settings hreg hset horacle hcheck,
    fun _ h => lintAll_of_regular h⟩

/-- A function with a loop whose merge and sum use only each other, a value that nothing but this
loop and a note refers to, a division and a shift that may fail, and an unused variable. -/
def idleLoop : Source.Func where
  name := "idle"
  synthetic := ""
  params := [.int]
  free := []
  blocks := [
    ⟨[⟨.binary .add, [some (.param 0), some (.const (some 1) .int)], .int, 3, "n + 1:int"⟩,
      ⟨.binary .div, [some (.param 0), some (.param 0)], .int, 4, "n / n"⟩,
      ⟨.debugRef, [some (.result ⟨0, 0⟩)], .int, 4, "; x is t0"⟩,
      ⟨.jump, [], .int, 0, "jump 1"⟩], [], [1]⟩,
    ⟨[⟨.phi, [some (.result ⟨0, 0⟩), some (.result ⟨1, 1⟩)], .int, 0, "phi [0: t0, 1: t3]"⟩,
      ⟨.binary .add, [some (.result ⟨1, 0⟩), some (.const (some 1) .int)], .int, 6, "t2 + 1:int"⟩,
      ⟨.call none, [some (.builtin "len"), some (.param 0)], .int, 7, "len(n)"⟩,
      ⟨.branch, [some (.result ⟨1, 2⟩)], .int, 0, "if t4 goto 1 else 2"⟩], [0, 1], [1, 2]⟩,
    ⟨[⟨.binary .shiftLeft, [some (.param 0), some (.param 0)], .int, 9, "n << n"⟩,
      ⟨.alloc, [], .pointer, 10, "new int (y)"⟩,
      ⟨.ret, [some (.result ⟨1, 2⟩)], .int, 0, "return t4"⟩], [1], []⟩]

theorem regular_idleLoop : idleLoop.Regular where
  few := by decide
  preds := by decide
  fits := by simp [idleLoop, Source.Instr.Fits]
  apart := by
    have hlen : ∀ rest, "len" ≠ "op:" ++ rest := by
      intro rest h
      have := congrArg String.toList h
      simp at this
    simpa [idleLoop, Func.CalleeApart, Source.Instr.arg?, Func.static?] using hlen

theorem findDead_idleLoop :
    ((Session.start .standard).findDead [] idleLoop.lower).1.2 =
      .ok [⟨0, 0⟩, ⟨1, 0⟩, ⟨1, 1⟩, ⟨2, 1⟩] := by
  cbv

theorem idleLoop_dead :
    idleLoop.Regular ∧ idleLoop.deadInstrs.map (·.1) = [⟨0, 0⟩, ⟨1, 0⟩, ⟨1, 1⟩, ⟨2, 1⟩] ∧
      ((Session.start .standard).lintAll [idleLoop]).1 = .ok idleLoop.deadFindings := by
  have hexact := findDead_exact (Session.start .standard)
  have hdead := hexact.1 idleLoop [] _ regular_idleLoop rfl rfl (Or.inl rfl)
  refine ⟨regular_idleLoop, Except.ok.inj (hdead.symm.trans findDead_idleLoop), ?_⟩
  have hall := hexact.2 [idleLoop] fun fn hfn _ => by
    rw [List.mem_singleton.mp hfn]
    exact ⟨regular_idleLoop, Or.inl rfl⟩
  simpa using hall

end Session

end Deadwood
