import Deadwood.Source.Lowering

/-!
# What lowering makes of a source function

Lowering turns the instruction at a site into one instruction of the analysis, unless it is a note
for debuggers. This file describes the result site by site, so that nothing later has to look at how
it is put together.

* `code_lower`: the code is the readings of the inputs, followed by the lowered instructions in the
  order of their sites.
* `tagAt_inj`: instructions from different sites are different. So a lowered instruction tells its
  site (`origin?_lower`).
* `valueOf?_inj`: different inputs and results have different values, as long as there are fewer of
  them than 32-bit names.
* `result?_lowerOp?`, `refs_lowerOp?`: a lowered instruction defines the value of its site, and
  refers to the values of the operands that its source instruction has, in their order.
* `targets_lowerOp?`: it sends control where its source instruction does.
* `defined_lower`: whatever a lowered instruction refers to is defined.
-/

namespace Deadwood

theorem Value.ofNat_inj {n m : Nat} (hn : n < 4294967296) (hm : m < 4294967296)
    (h : Value.ofNat n = Value.ofNat m) : n = m := by
  have hnat : (UInt32.ofNat n).toNat = (UInt32.ofNat m).toNat :=
    congrArg (fun v => v.num.toNat) h
  rw [UInt32.toNat_ofNat', UInt32.toNat_ofNat'] at hnat
  omega

theorem Value.isSome_ofNat {n : Nat} (hpos : 0 < n) (hn : n < 4294967296) :
    (Value.ofNat n).IsSome := by
  intro h
  have := Value.ofNat_inj hn (by omega) (h.trans (show Value.nothing = Value.ofNat 0 from rfl))
  omega

theorem Incoming.set_of_not_mem {inc : Incoming} {b : BlockRef} (h : b ∉ inc.map (·.1))
    (x : Operand) : Incoming.set inc b x = inc ++ [(b, x)] := by
  induction inc with
  | nil => rfl
  | cons e rest ih =>
    rw [List.map_cons, List.mem_cons, not_or] at h
    rw [Incoming.set, if_neg (Ne.symm h.1), ih h.2, List.cons_append]

theorem Incoming.foldl_set {es : List (BlockRef × Operand)} {inc : Incoming}
    (h : ((inc ++ es).map (·.1)).Nodup) :
    es.foldl (fun acc e => Incoming.set acc e.1 e.2) inc = inc ++ es := by
  induction es generalizing inc with
  | nil => simp
  | cons e rest ih =>
    have hnew : e.1 ∉ inc.map (·.1) := by
      rw [List.map_append, List.map_cons, List.nodup_append] at h
      intro hmem
      exact h.2.2 _ hmem _ List.mem_cons_self rfl
    rw [List.foldl_cons, Incoming.set_of_not_mem hnew, ih (by simpa using h)]
    simp

theorem Incoming.mem_of_mem_set {inc : Incoming} {b : BlockRef} {x : Operand}
    {e : BlockRef × Operand} (h : e ∈ Incoming.set inc b x) : e ∈ inc ∨ e = (b, x) := by
  induction inc with
  | nil => exact Or.inr (List.mem_singleton.mp h)
  | cons d rest ih =>
    rw [Incoming.set] at h
    split at h
    · rcases List.mem_cons.mp h with heq | hrest
      · exact Or.inr heq
      · exact Or.inl (List.mem_cons_of_mem d hrest)
    · rcases List.mem_cons.mp h with heq | hrest
      · exact Or.inl (heq ▸ List.mem_cons_self)
      · exact (ih hrest).imp_left (List.mem_cons_of_mem d)

namespace Source

theorem map_getD_range {α : Type} (l : List α) (d : α) :
    (List.range l.length).map (fun r => l.getD r d) = l := by
  refine List.ext_getElem (by simp) fun n h _ => ?_
  simp only [List.length_map, List.length_range] at h
  simp [List.getD_eq_getElem?_getD, List.getElem?_eq_getElem h]

theorem map_fst_zip_eq_take {α β : Type} (l : List α) (m : List β) :
    (l.zip m).map Prod.fst = l.take m.length := by
  rw [List.zip_eq_zip_take_min, List.map_fst_zip (by simp), List.take_eq_take_iff]
  omega

theorem lookup_of_unique {α β : Type} [BEq α] [LawfulBEq α] {l : List (α × β)} {a : α} {b : β}
    (hmem : (a, b) ∈ l) (hunique : ∀ c, (a, c) ∈ l → c = b) : l.lookup a = some b := by
  induction l with
  | nil => cases hmem
  | cons e rest ih =>
    obtain ⟨x, y⟩ := e
    rw [List.lookup_cons]
    by_cases hx : a = x
    · subst hx
      rw [beq_self_eq_true, hunique y List.mem_cons_self]
    · have hrest : (a, b) ∈ rest := by
        rcases List.mem_cons.mp hmem with heq | hrest
        · exact absurd (congrArg Prod.fst heq) hx
        · exact hrest
      rw [beq_false_of_ne hx]
      exact ih hrest fun c hc => hunique c (List.mem_cons_of_mem _ hc)

namespace Func

/-! ## Sites -/

theorem mem_instrs_iff {fn : Func} {s : Site} {i : Instr} :
    (s, i) ∈ fn.instrs ↔ fn.instr? s = some i := by
  obtain ⟨n, k⟩ := s
  unfold instrs instr?
  rw [← List.flatMap_def, List.mem_flatMap]
  constructor
  · rintro ⟨⟨b, n'⟩, hb, hi⟩
    obtain ⟨⟨i', k'⟩, hk, heq⟩ := List.mem_map.mp hi
    simp only [Prod.mk.injEq, Site.mk.injEq] at heq
    obtain ⟨⟨rfl, rfl⟩, rfl⟩ := heq
    rw [List.mem_zipIdx_iff_getElem?] at hb hk
    exact Option.bind_eq_some_iff.mpr ⟨b, hb, hk⟩
  · intro h
    obtain ⟨b, hb, hi⟩ := Option.bind_eq_some_iff.mp h
    refine ⟨(b, n), List.mem_zipIdx_iff_getElem?.mpr hb, List.mem_map.mpr ⟨(i, k), ?_, rfl⟩⟩
    exact List.mem_zipIdx_iff_getElem?.mpr hi

/-- The blocks before a given one have as many instructions as the sites before its own. -/
theorem offset_succ {fn : Func} {n : Nat} {b : Block} (h : fn.blocks[n]? = some b) :
    fn.offset (n + 1) = fn.offset n + b.instrs.length := by
  unfold offset
  generalize fn.blocks = blocks at h
  induction blocks generalizing n with
  | nil => cases h
  | cons c rest ih =>
    cases n with
    | zero =>
      cases h
      simp [Block.totalLength]
    | succ n =>
      simp only [List.take_succ_cons, Block.totalLength]
      rw [ih (by simpa using h)]
      omega

theorem offset_mono (fn : Func) {n m : Nat} (h : n ≤ m) : fn.offset n ≤ fn.offset m := by
  induction h with
  | refl => exact Nat.le_refl _
  | @step m _ ih =>
    cases hb : fn.blocks[m]? with
    | some b =>
      rw [offset_succ hb]
      omega
    | none =>
      have hlen : fn.blocks.length ≤ m := List.getElem?_eq_none_iff.mp hb
      unfold offset at ih ⊢
      rw [List.take_of_length_le (Nat.le_succ_of_le hlen)]
      rwa [List.take_of_length_le hlen] at ih

theorem length_of_instr? {fn : Func} {s : Site} {i : Instr} (h : fn.instr? s = some i) :
    fn.offset s.block + s.index < fn.offset (s.block + 1) := by
  obtain ⟨b, hb, hi⟩ := Option.bind_eq_some_iff.mp h
  have hlt : s.index < b.instrs.length := (List.getElem?_eq_some_iff.mp hi).1
  rw [offset_succ hb]
  omega

/-- Instructions from different sites have different tags. -/
theorem tagAt_inj {fn : Func} {s t : Site} {i j : Instr} (hs : fn.instr? s = some i)
    (ht : fn.instr? t = some j) (h : fn.tagAt s = fn.tagAt t) : s = t := by
  have hs' := length_of_instr? hs
  have ht' := length_of_instr? ht
  obtain ⟨n, k⟩ := s
  obtain ⟨m, l⟩ := t
  simp only [tagAt] at h hs' ht'
  have hle : n = m := by
    rcases Nat.lt_trichotomy n m with hlt | heq | hgt
    · have := fn.offset_mono (show n + 1 ≤ m from hlt)
      omega
    · exact heq
    · have := fn.offset_mono (show m + 1 ≤ n from hgt)
      omega
  subst hle
  have hkl : k = l := by omega
  rw [hkl]

/-! ## The code, site by site -/

/-- The lowered instruction of a site, with the site it comes from. -/
def lowerAt? (fn : Func) (s : Site) (i : Instr) : Option (Deadwood.Instr × Site) :=
  fn.blocks[s.block]?.bind fun b => (fn.lowerOp? b s i).map fun op => (⟨fn.tagAt s, op⟩, s)

theorem lowerAt?_eq_some_iff {fn : Func} {s : Site} {i : Instr} {p : Deadwood.Instr × Site} :
    fn.lowerAt? s i = some p ↔ ∃ b op, fn.blocks[s.block]? = some b ∧
      fn.lowerOp? b s i = some op ∧ p = (⟨fn.tagAt s, op⟩, s) := by
  simp only [lowerAt?, Option.bind_eq_some_iff, Option.map_eq_some_iff]
  constructor
  · rintro ⟨b, hb, op, hop, rfl⟩
    exact ⟨b, op, hb, hop, rfl⟩
  · rintro ⟨b, op, hb, hop, rfl⟩
    exact ⟨b, hb, op, hop, rfl⟩

theorem lowerBlock_eq {fn : Func} {n : Nat} {b : Block} (h : fn.blocks[n]? = some b) :
    fn.lowerBlock n b =
      (b.instrs.zipIdx.map fun (i, k) => ((⟨n, k⟩ : Site), i)).filterMap
        fun p => fn.lowerAt? p.1 p.2 := by
  unfold lowerBlock
  rw [List.filterMap_map]
  congr 1
  funext e
  simp [lowerAt?, h]

/-- The lowered instructions come in the order of their sites. -/
theorem origins_lower (fn : Func) :
    fn.lower.origins = fn.instrs.filterMap fun p => fn.lowerAt? p.1 p.2 := by
  unfold lower instrs
  rw [List.filterMap_flatten, List.mapIdx_eq_zipIdx_map, List.map_map]
  refine congrArg List.flatten (List.map_congr_left fun e he => ?_)
  exact lowerBlock_eq (List.mem_zipIdx_iff_getElem?.mp he)

/-- The instructions that lowering puts before all others. -/
def opening (fn : Func) : List Deadwood.Instr :=
  if fn.blocks = [] then [] else fn.readInputs

/-- The layout of a lowered function is its whole pool. -/
theorem body_lower (fn : Func) : fn.lower.func.body = fn.lower.func.pool := by
  have hlen : fn.lower.func.layout = List.range fn.lower.func.pool.length := by
    simp only [lower, List.length_mapIdx]
  unfold Deadwood.Func.body Deadwood.Func.block
  rw [hlen, map_getD_range]

theorem bodies_lower (fn : Func) :
    fn.lower.func.pool.map (·.body) =
      (fn.blocks.mapIdx fn.lowerBlock).mapIdx fun n row =>
        (if n = 0 then fn.readInputs else []) ++ row.map (·.1) := by
  unfold lower
  refine List.ext_getElem (by simp) fun n h _ => ?_
  simp

/-- **The code of a lowered function.** -/
theorem code_lower (fn : Func) :
    fn.lower.func.code = fn.opening ++ fn.lower.origins.map (·.1) := by
  have horigins : fn.lower.origins = (fn.blocks.mapIdx fn.lowerBlock).flatten := rfl
  unfold Deadwood.Func.code opening
  rw [List.flatMap_def, body_lower, bodies_lower, horigins]
  cases hb : fn.blocks with
  | nil => rfl
  | cons b rest =>
    simp only [List.mapIdx_cons, List.mapIdx_mapIdx, List.flatten_cons, List.map_append,
      List.map_flatten, if_true, Nat.add_eq_zero_iff, Nat.succ_ne_self, and_false, if_false,
      List.nil_append, List.append_assoc, reduceCtorEq]
    rw [List.mapIdx_eq_zipIdx_map, List.mapIdx_eq_zipIdx_map, List.map_map]
    rfl

theorem mem_opening {fn : Func} {j : Deadwood.Instr} (h : j ∈ fn.opening) :
    ∃ n < fn.inputs, j = ⟨n, .param (Value.ofNat (n + 1)) n⟩ := by
  unfold opening at h
  split at h
  · cases h
  · obtain ⟨n, hn, rfl⟩ := List.mem_map.mp h
    exact ⟨n, List.mem_range.mp hn, rfl⟩

/-! ## Values -/

/-- How many values the function computes or is given. -/
def valueCount (fn : Func) : Nat := fn.inputs + fn.valueSites.length

/-- The place of an operand among the inputs and results, in the order in which they are numbered.
-/
def rank? (fn : Func) : Arg → Option Nat
  | .param n => if n < fn.params.length then some n else none
  | .free n => if n < fn.free.length then some (fn.params.length + n) else none
  | .result s => (fn.valueSites.idxOf? s).map (fn.inputs + ·)
  | _ => none

theorem valueOf?_eq (fn : Func) (a : Arg) :
    fn.valueOf? a = (fn.rank? a).map fun r => Value.ofNat (r + 1) := by
  cases a with
  | param n =>
    simp only [valueOf?, rank?]
    split <;> rfl
  | free n =>
    simp only [valueOf?, rank?]
    split <;> rfl
  | result s => simp [valueOf?, rank?, resultAt?, Function.comp_def]
  | _ => rfl

/-- What has a place, and which. -/
theorem rank?_eq_some {fn : Func} {a : Arg} {r : Nat} (h : fn.rank? a = some r) :
    (a = .param r ∧ r < fn.params.length) ∨
      (∃ n, a = .free n ∧ n < fn.free.length ∧ r = fn.params.length + n) ∨
      ∃ s k, a = .result s ∧ fn.valueSites[k]? = some s ∧
        r = fn.params.length + fn.free.length + k := by
  cases a with
  | param n =>
    obtain ⟨hn, rfl⟩ : n < fn.params.length ∧ n = r := by simpa [rank?] using h
    exact Or.inl ⟨rfl, hn⟩
  | free n =>
    obtain ⟨hn, hr⟩ : n < fn.free.length ∧ fn.params.length + n = r := by simpa [rank?] using h
    exact Or.inr (Or.inl ⟨n, rfl, hn, hr.symm⟩)
  | result s =>
    obtain ⟨k, hk, hr⟩ := Option.map_eq_some_iff.mp h
    obtain ⟨hlt, hs, -⟩ := List.idxOf?_eq_some_iff.mp hk
    exact Or.inr (Or.inr ⟨s, k, rfl, List.getElem?_eq_some_iff.mpr ⟨hlt, hs⟩, hr.symm⟩)
  | _ => cases h

theorem rank?_lt {fn : Func} {a : Arg} {r : Nat} (h : fn.rank? a = some r) :
    r < fn.valueCount := by
  unfold valueCount inputs
  rcases rank?_eq_some h with ⟨-, hr⟩ | ⟨n, -, hn, hr⟩ | ⟨s, k, -, hk, hr⟩
  · omega
  · omega
  · have := (List.getElem?_eq_some_iff.mp hk).1
    omega

theorem rank?_inj {fn : Func} {a b : Arg} {r : Nat} (ha : fn.rank? a = some r)
    (hb : fn.rank? b = some r) : a = b := by
  -- parameters, captured variables and results have places in disjoint intervals
  rcases rank?_eq_some ha with ⟨rfl, hr⟩ | ⟨n, rfl, hn, hr⟩ | ⟨s, k, rfl, hk, hr⟩ <;>
    rcases rank?_eq_some hb with ⟨rfl, hr'⟩ | ⟨m, rfl, hm, hr'⟩ | ⟨t, l, rfl, hl, hr'⟩ <;>
    try omega
  · rfl
  · obtain rfl : n = m := by omega
    rfl
  · obtain rfl : k = l := by omega
    rw [Option.some.inj (hk.symm.trans hl)]

/-- **Different operands have different values**, in a function with fewer values than there are
names. -/
theorem valueOf?_inj {fn : Func} (hfew : fn.valueCount < 4294967296) {a b : Arg} {v : Value}
    (ha : fn.valueOf? a = some v) (hb : fn.valueOf? b = some v) : a = b := by
  rw [valueOf?_eq] at ha hb
  obtain ⟨r, hr, rfl⟩ := Option.map_eq_some_iff.mp ha
  obtain ⟨q, hq, hqr⟩ := Option.map_eq_some_iff.mp hb
  have hrlt := rank?_lt hr
  have hqlt := rank?_lt hq
  obtain rfl : q = r := by
    have := Value.ofNat_inj (by omega) (by omega) hqr
    omega
  exact rank?_inj hr hq

theorem isSome_of_valueOf? {fn : Func} (hfew : fn.valueCount < 4294967296) {a : Arg} {v : Value}
    (h : fn.valueOf? a = some v) : v.IsSome := by
  rw [valueOf?_eq] at h
  obtain ⟨r, hr, rfl⟩ := Option.map_eq_some_iff.mp h
  have := rank?_lt hr
  exact Value.isSome_ofNat (by omega) (by omega)

theorem mem_valueSites_iff {fn : Func} {s : Site} :
    s ∈ fn.valueSites ↔ ∃ i, fn.instr? s = some i ∧ i.kind.isValue = true := by
  unfold valueSites
  simp only [List.mem_map, List.mem_filter]
  constructor
  · rintro ⟨⟨t, i⟩, ⟨hmem, hval⟩, rfl⟩
    exact ⟨i, mem_instrs_iff.mp hmem, hval⟩
  · rintro ⟨i, hi, hval⟩
    exact ⟨(s, i), ⟨mem_instrs_iff.mpr hi, hval⟩, rfl⟩

/-- The sites of instructions with a result have a value. -/
theorem isSome_resultAt? {fn : Func} {s : Site} {i : Instr} (hi : fn.instr? s = some i) :
    (fn.resultAt? s).isSome = i.kind.isValue := by
  rw [Bool.eq_iff_iff, resultAt?, Option.isSome_map, List.isSome_idxOf?, mem_valueSites_iff]
  constructor
  · rintro ⟨j, hj, hval⟩
    obtain rfl : i = j := Option.some.inj (hi.symm.trans hj)
    exact hval
  · intro hval
    exact ⟨i, hi, hval⟩

/-- The instructions that read the inputs define the first values. -/
theorem result?_input {fn : Func} (hfew : fn.valueCount < 4294967296) {n : Nat}
    (hn : n < fn.inputs) :
    (Op.param (Value.ofNat (n + 1)) n).result? = some (Value.ofNat (n + 1)) := by
  have hlt : n + 1 < 4294967296 := by
    unfold valueCount at hfew
    omega
  have hsome : (Value.ofNat (n + 1)).IsSome := Value.isSome_ofNat (Nat.succ_pos n) hlt
  simp [Op.result?, Op.def?, hsome]

theorem resultAt?_ne_input {fn : Func} (hfew : fn.valueCount < 4294967296) {n : Nat}
    (hn : n < fn.inputs) (s : Site) : fn.resultAt? s ≠ some (Value.ofNat (n + 1)) := by
  intro h
  obtain ⟨k, hk, hkv⟩ := Option.map_eq_some_iff.mp h
  obtain ⟨hlt, -, -⟩ := List.idxOf?_eq_some_iff.mp hk
  unfold valueCount at hfew
  have := Value.ofNat_inj (by omega) (by omega) hkv
  omega

/-! ## Operations -/

theorem value?_operand {fn : Func} (hfew : fn.valueCount < 4294967296) (a : Arg) :
    (fn.operand a).value? = fn.valueOf? a := by
  unfold operand
  cases hv : fn.valueOf? a with
  | some v => exact Operand.value?_eq_some_iff.mpr ⟨rfl, isSome_of_valueOf? hfew hv⟩
  | none =>
    dsimp only
    split <;> rfl

theorem value?_slot {fn : Func} (hfew : fn.valueCount < 4294967296) (place : Option Arg) :
    (fn.slot place).value? = place.bind fn.valueOf? := by
  cases place with
  | none => rfl
  | some a => exact value?_operand hfew a

end Func

/-- The instruction has no more operands than its kind has places, and the block has the edges that
it needs. -/
def Instr.Fits (b : Block) (i : Instr) : Prop :=
  match i.kind with
  | .phi => i.args.length ≤ b.preds.length
  | .branch => i.args.length ≤ 1 ∧ 2 ≤ b.succs.length
  | .jump => i.args = [] ∧ 1 ≤ b.succs.length
  | .store => i.args.length ≤ 2
  | .changeType => i.args.length ≤ 1
  | _ => True

/-- Where an instruction of the block sends control. -/
def Instr.exits (b : Block) (i : Instr) : List Nat :=
  match i.kind with
  | .jump => b.succs.take 1
  | .branch => b.succs.take 2
  | _ => []

/-- Whether the analysis has an operation for instructions of the kind. The others become calls. -/
def Kind.hasOperation : Kind → Bool
  | phi | ret | branch | jump | store | changeType | call _ | go | defer => true
  | _ => false

/-- The places for operands that an instruction still has when it is lowered. Where the analysis has
no operation for it, the empty ones vanish. -/
def Instr.places (i : Instr) : List (Option Arg) :=
  if i.kind.hasOperation then i.args else i.args.filter Option.isSome

namespace Func

/-- A merge receives its operands from the predecessors in turn. -/
theorem incoming_eq (fn : Func) {b : Block} (hpreds : b.preds.Nodup) (i : Instr) :
    fn.incoming b i = (b.preds.zip i.args).map fun e => (e.1, fn.slot e.2) := by
  let received := (b.preds.zip i.args).map fun e => (e.1, fn.slot e.2)
  have hnodup : (received.map (·.1)).Nodup := by
    have hkeys : received.map (·.1) = (b.preds.zip i.args).map Prod.fst := List.map_map
    rw [hkeys, map_fst_zip_eq_take]
    exact hpreds.sublist (List.take_sublist _ _)
  have hset : received.foldl (fun acc e => Incoming.set acc e.1 e.2) [] = received :=
    Incoming.foldl_set hnodup
  rw [List.foldl_map] at hset
  exact hset

/-- A merge receives what it receives from predecessors, also if a predecessor is listed twice. -/
theorem mem_incoming {fn : Func} {b : Block} {i : Instr} {e : BlockRef × Operand}
    (h : e ∈ fn.incoming b i) : e.1 ∈ b.preds ∧ ∃ place, e.2 = fn.slot place := by
  have hfold : ∀ (edges : List (Nat × Option Arg)) (acc : Incoming),
      e ∈ edges.foldl (fun acc d => Incoming.set acc d.1 (fn.slot d.2)) acc →
        e ∈ acc ∨ ∃ d ∈ edges, e = (d.1, fn.slot d.2) := by
    intro edges
    induction edges with
    | nil => exact fun acc he => Or.inl he
    | cons d rest ih =>
      intro acc he
      rcases ih _ he with hacc | ⟨c, hc, heq⟩
      · exact (Incoming.mem_of_mem_set hacc).imp_right fun heq => ⟨d, List.mem_cons_self, heq⟩
      · exact Or.inr ⟨c, List.mem_cons_of_mem d hc, heq⟩
  rcases hfold _ _ h with hnil | ⟨d, hd, rfl⟩
  · cases hnil
  · exact ⟨(List.of_mem_zip hd).1, d.2, rfl⟩

/-- Whatever a lowered instruction reads stands for a place of its source. -/
theorem mem_uses_lowerOp? {fn : Func} {b : Block} {s : Site} {i : Instr} {op : Op} {x : Operand}
    (h : fn.lowerOp? b s i = some op) (hx : x ∈ op.uses) : ∃ place, x = fn.slot place := by
  have hslots (places : List (Option Arg)) (hmem : x ∈ places.map fn.slot) :
      ∃ place, x = fn.slot place := by
    obtain ⟨place, -, rfl⟩ := List.mem_map.mp hmem
    exact ⟨place, rfl⟩
  unfold lowerOp? at h
  dsimp only at h
  split at h <;> cases h
  case h_2.refl =>
    obtain ⟨e, he, rfl⟩ := List.mem_map.mp hx
    exact (mem_incoming he).2
  case h_3.refl => exact hslots i.args hx
  case h_4.refl => exact hslots [i.arg? 0] hx
  case h_5.refl => cases hx
  case h_6.refl => exact hslots [i.arg? 0, i.arg? 1] hx
  case h_7.refl => exact hslots [i.arg? 0] hx
  case h_11.refl =>
    refine hslots ((i.args.filterMap id).map some) ?_
    rw [List.map_map]
    exact hx
  all_goals exact hslots (i.arg? 0 :: i.args.drop 1) hx

/-- Lists of places hold the same operands in the same order if each place of one is as in the
other, or is empty where the other has ended. -/
theorem filterMap_id_eq {α : Type} {l m : List (Option α)}
    (h : ∀ k : Nat, (l[k]?).join = (m[k]?).join) : l.filterMap id = m.filterMap id := by
  induction l generalizing m with
  | nil =>
    symm
    rw [List.filterMap_nil, List.filterMap_eq_nil_iff]
    intro x hx
    obtain ⟨k, hk⟩ := List.mem_iff_getElem?.mp hx
    simpa [hk] using (h k).symm
  | cons x l ih =>
    have hrest : l.filterMap id = m.tail.filterMap id := by
      refine ih fun k => ?_
      rw [List.getElem?_tail, ← h (k + 1), List.getElem?_cons_succ]
    have hfirst : x = (m[0]?).join := h 0
    cases m with
    | nil =>
      obtain rfl : x = none := hfirst
      exact hrest
    | cons y m =>
      obtain rfl : x = y := hfirst
      rw [List.filterMap_cons, List.filterMap_cons, hrest, List.tail_cons]

theorem filter_isSome {α : Type} (l : List (Option α)) :
    l.filter Option.isSome = (l.filterMap id).map some := by
  induction l with
  | nil => rfl
  | cons x l ih => cases x <;> simp [ih]

theorem filterMap_places (i : Instr) : i.places.filterMap id = i.args.filterMap id := by
  unfold Instr.places
  split
  · rfl
  · rw [filter_isSome, List.filterMap_map]
    exact List.filterMap_some

/-- **A lowered instruction reads place by place what its source has there.** -/
theorem exists_uses_lowerOp? {fn : Func} {b : Block} {s : Site} {i : Instr} {op : Op}
    (hpreds : b.preds.Nodup) (hfits : i.Fits b) (h : fn.lowerOp? b s i = some op) :
    ∃ places : List (Option Arg), op.uses = places.map fn.slot ∧
      ∀ k : Nat, (places[k]?).join = (i.places[k]?).join := by
  have hcall : ∀ k : Nat, ((i.arg? 0 :: i.args.drop 1)[k]?).join = (i.args[k]?).join := by
    intro k
    cases k with
    | zero => rfl
    | succ k => rw [List.getElem?_cons_succ, List.getElem?_drop, Nat.add_comm]
  have hfirst : ∀ n, i.args.length ≤ n →
      ∀ k : Nat, (((List.range n).map i.arg?)[k]?).join = (i.args[k]?).join := by
    intro n hn k
    by_cases hk : k < n
    · simp [hk, Instr.arg?]
    · rw [List.getElem?_eq_none (by simpa using hk), List.getElem?_eq_none (by omega)]
  unfold lowerOp? at h
  unfold Instr.Fits at hfits
  unfold Instr.places
  dsimp only at h
  split at h <;> rename_i hkind <;> cases h <;> simp only [hkind] at hfits <;>
    simp only [hkind, Kind.hasOperation, if_true]
  case h_2.refl =>
    -- a merge has no more operands than there are predecessors to receive them from
    have hslots : (b.preds.zip i.args).map (fn.slot ∘ Prod.snd) = i.args.map fn.slot := by
      rw [← List.map_map, List.map_snd_zip hfits]
    refine ⟨i.args, ?_, fun k => rfl⟩
    rw [Op.uses, Op.uses?, incoming_eq fn hpreds, Option.getD_some, List.map_map]
    exact hslots
  case h_3.refl => exact ⟨i.args, rfl, fun k => rfl⟩
  case h_4.refl => exact ⟨_, rfl, hfirst 1 hfits.1⟩
  case h_5.refl => exact ⟨i.args, by rw [hfits.1]; rfl, fun k => rfl⟩
  case h_6.refl => exact ⟨_, rfl, hfirst 2 hfits⟩
  case h_7.refl => exact ⟨_, rfl, hfirst 1 hfits⟩
  case h_8.refl => exact ⟨_, rfl, hcall⟩
  case h_9.refl => exact ⟨_, rfl, hcall⟩
  case h_10.refl => exact ⟨_, rfl, hcall⟩
  case h_11.refl =>
    refine ⟨i.args.filter Option.isSome, ?_, fun k => rfl⟩
    rw [filter_isSome, List.map_map]
    rfl

/-- **A lowered instruction refers to the values of the operands that its source has**, in their
order. -/
theorem refs_lowerOp? {fn : Func} {b : Block} {s : Site} {i : Instr} {op : Op}
    (hfew : fn.valueCount < 4294967296) (hpreds : b.preds.Nodup) (hfits : i.Fits b)
    (h : fn.lowerOp? b s i = some op) :
    op.refs = (i.args.filterMap id).filterMap fn.valueOf? := by
  obtain ⟨places, huses, hplaces⟩ := exists_uses_lowerOp? hpreds hfits h
  calc op.refs = places.filterMap fun place => place.bind fn.valueOf? := by
        rw [Op.refs, huses, List.filterMap_map]
        congr 1
        funext place
        exact value?_slot hfew place
    _ = (places.filterMap id).filterMap fn.valueOf? := by
        rw [List.filterMap_filterMap]
        rfl
    _ = (i.args.filterMap id).filterMap fn.valueOf? := by
        rw [filterMap_id_eq hplaces, filterMap_places]

theorem mem_refs_lowerOp? {fn : Func} {b : Block} {s : Site} {i : Instr} {op : Op} {v : Value}
    (hfew : fn.valueCount < 4294967296) (hpreds : b.preds.Nodup) (hfits : i.Fits b)
    (h : fn.lowerOp? b s i = some op) :
    v ∈ op.refs ↔ ∃ a, some a ∈ i.args ∧ fn.valueOf? a = some v := by
  rw [refs_lowerOp? hfew hpreds hfits h]
  simp

/-- A lowered instruction sends control where its source does. -/
theorem targets_lowerOp? {fn : Func} {b : Block} {s : Site} {i : Instr} {op : Op}
    (hfits : i.Fits b) (h : fn.lowerOp? b s i = some op) : op.targets = i.exits b := by
  unfold lowerOp? at h
  unfold Instr.Fits at hfits
  unfold Instr.exits
  dsimp only at h
  split at h <;> rename_i hkind <;> cases h <;> simp only [hkind] at hfits ⊢
  case h_4.refl =>
    cases hsuccs : b.succs with
    | nil => simp [hsuccs] at hfits
    | cons yes rest =>
      cases rest with
      | nil => simp [hsuccs] at hfits
      | cons no rest => rfl
  case h_5.refl =>
    cases hsuccs : b.succs with
    | nil => simp [hsuccs] at hfits
    | cons next rest => rfl
  all_goals rfl

theorem lowerOp?_eq_none_iff {fn : Func} {b : Block} {s : Site} {i : Instr} :
    fn.lowerOp? b s i = none ↔ i.kind = .debugRef := by
  unfold lowerOp?
  dsimp only
  split <;> simp_all

theorem isKnown_lowerOp? {fn : Func} {b : Block} {s : Site} {i : Instr} {op : Op}
    (h : fn.lowerOp? b s i = some op) : op.isKnown = true := by
  unfold lowerOp? at h
  dsimp only at h
  split at h <;> cases h <;> rfl

/-- **A lowered instruction defines the value of its site.** -/
theorem result?_lowerOp? {fn : Func} {b : Block} {s : Site} {i : Instr} {op : Op}
    (hfew : fn.valueCount < 4294967296) (hi : fn.instr? s = some i)
    (h : fn.lowerOp? b s i = some op) : op.result? = fn.resultAt? s := by
  have hdst : (some ((fn.resultAt? s).getD Value.nothing)).filter (fun v => decide v.IsSome) =
      fn.resultAt? s := by
    cases hr : fn.resultAt? s with
    | none => rfl
    | some v =>
      have hv : v.IsSome := isSome_of_valueOf? (a := .result s) hfew hr
      simp [hv]
  have hnone : i.kind.isValue = false → fn.resultAt? s = none := by
    intro hkind
    rw [← Option.not_isSome_iff_eq_none, isSome_resultAt? hi, hkind]
    exact Bool.false_ne_true
  unfold lowerOp? at h
  dsimp only at h
  split at h <;> rename_i hkind <;> cases h
  case h_2.refl => exact hdst
  case h_7.refl => exact hdst
  case h_8.refl => exact hdst
  case h_11.refl => exact hdst
  all_goals
    rw [hnone (by rw [hkind]; rfl)]
    rfl

/-! ## Lowered instructions and their sites -/

/-- `j` is the lowered instruction of the site `s`. -/
def Lowers (fn : Func) (s : Site) (j : Deadwood.Instr) : Prop := (j, s) ∈ fn.lower.origins

theorem lowers_iff {fn : Func} {s : Site} {j : Deadwood.Instr} :
    fn.Lowers s j ↔ ∃ b i op, fn.blocks[s.block]? = some b ∧ fn.instr? s = some i ∧
      fn.lowerOp? b s i = some op ∧ j = ⟨fn.tagAt s, op⟩ := by
  unfold Lowers
  rw [origins_lower, List.mem_filterMap]
  constructor
  · rintro ⟨⟨t, i⟩, hmem, hlow⟩
    obtain ⟨b, op, hb, hop, heq⟩ := lowerAt?_eq_some_iff.mp hlow
    obtain ⟨rfl, rfl⟩ := Prod.mk.inj heq
    exact ⟨b, i, op, hb, mem_instrs_iff.mp hmem, hop, rfl⟩
  · rintro ⟨b, i, op, hb, hi, hop, rfl⟩
    exact ⟨(s, i), mem_instrs_iff.mpr hi, lowerAt?_eq_some_iff.mpr ⟨b, op, hb, hop, rfl⟩⟩

theorem Lowers.site_unique {fn : Func} {s t : Site} {j : Deadwood.Instr} (hs : fn.Lowers s j)
    (ht : fn.Lowers t j) : s = t := by
  obtain ⟨b, i, op, -, hi, -, rfl⟩ := lowers_iff.mp hs
  obtain ⟨c, k, op', -, hk, -, heq⟩ := lowers_iff.mp ht
  exact tagAt_inj hi hk (congrArg Instr.tag heq)

theorem Lowers.instr_unique {fn : Func} {s : Site} {j k : Deadwood.Instr} (hj : fn.Lowers s j)
    (hk : fn.Lowers s k) : j = k := by
  obtain ⟨b, i, op, hb, hi, hop, rfl⟩ := lowers_iff.mp hj
  obtain ⟨c, i', op', hc, hi', hop', rfl⟩ := lowers_iff.mp hk
  obtain rfl : b = c := Option.some.inj (hb.symm.trans hc)
  obtain rfl : i = i' := Option.some.inj (hi.symm.trans hi')
  obtain rfl : op = op' := Option.some.inj (hop.symm.trans hop')
  rfl

/-- Every instruction but a note is lowered. -/
theorem exists_lowers {fn : Func} {s : Site} {i : Instr} (hi : fn.instr? s = some i)
    (hkind : i.kind ≠ .debugRef) : ∃ j, fn.Lowers s j := by
  obtain ⟨b, hb, -⟩ := Option.bind_eq_some_iff.mp hi
  obtain ⟨op, hop⟩ : ∃ op, fn.lowerOp? b s i = some op :=
    Option.ne_none_iff_exists'.mp (mt lowerOp?_eq_none_iff.mp hkind)
  exact ⟨_, lowers_iff.mpr ⟨b, i, op, hb, hi, hop, rfl⟩⟩

theorem exists_lowers_of_isValue {fn : Func} {s : Site} {i : Instr} (hi : fn.instr? s = some i)
    (hval : i.kind.isValue = true) : ∃ j, fn.Lowers s j := by
  refine exists_lowers hi fun hkind => ?_
  rw [hkind] at hval
  cases hval

theorem Lowers.blocks_ne_nil {fn : Func} {s : Site} {j : Deadwood.Instr} (h : fn.Lowers s j) :
    fn.blocks ≠ [] := by
  obtain ⟨b, -, -, hb, -, -, -⟩ := lowers_iff.mp h
  exact List.ne_nil_of_mem (List.mem_of_getElem? hb)

theorem mem_code_lower {fn : Func} {j : Deadwood.Instr} :
    j ∈ fn.lower.func.code ↔ j ∈ fn.opening ∨ ∃ s, fn.Lowers s j := by
  rw [code_lower, List.mem_append, List.mem_map]
  simp [Lowers]

/-- Lowered functions hold no instruction that the analysis does not know. -/
theorem isKnown_lower {fn : Func} {j : Deadwood.Instr} (h : j ∈ fn.lower.func.code) :
    j.op.isKnown = true := by
  rcases mem_code_lower.mp h with hopen | ⟨s, hs⟩
  · obtain ⟨n, -, rfl⟩ := mem_opening hopen
    rfl
  · obtain ⟨b, i, op, -, -, hop, rfl⟩ := lowers_iff.mp hs
    exact isKnown_lowerOp? hop

/-- Every operand that has to be computed is computed. -/
theorem exists_result?_eq {fn : Func} (hfew : fn.valueCount < 4294967296) (hbody : fn.blocks ≠ [])
    {a : Arg} {v : Value} (h : fn.valueOf? a = some v) :
    ∃ j ∈ fn.lower.func.code, j.op.result? = some v := by
  have hinput : ∀ n < fn.inputs, ∃ j ∈ fn.lower.func.code,
      j.op.result? = some (Value.ofNat (n + 1)) := by
    intro n hn
    have hmem : (⟨n, .param (Value.ofNat (n + 1)) n⟩ : Deadwood.Instr) ∈ fn.opening := by
      rw [opening, if_neg hbody]
      exact List.mem_map.mpr ⟨n, List.mem_range.mpr hn, rfl⟩
    exact ⟨_, mem_code_lower.mpr (Or.inl hmem), result?_input hfew hn⟩
  obtain ⟨r, hr, rfl⟩ := Option.map_eq_some_iff.mp ((fn.valueOf?_eq a).symm.trans h)
  rcases rank?_eq_some hr with ⟨rfl, hlt⟩ | ⟨n, rfl, hn, rfl⟩ | ⟨t, k, rfl, hk, rfl⟩
  · exact hinput r (by unfold inputs; omega)
  · exact hinput _ (by unfold inputs; omega)
  · obtain ⟨i, hi, hval⟩ := mem_valueSites_iff.mp (List.mem_of_getElem? hk)
    obtain ⟨j, hj⟩ := exists_lowers_of_isValue hi hval
    refine ⟨j, mem_code_lower.mpr (Or.inr ⟨t, hj⟩), ?_⟩
    obtain ⟨b, i', op, -, hi', hop, rfl⟩ := lowers_iff.mp hj
    exact (result?_lowerOp? hfew hi' hop).trans h

/-- **What a lowered function refers to, it defines**, whatever the operands of its source. -/
theorem defined_lower {fn : Func} (hfew : fn.valueCount < 4294967296) {j : Deadwood.Instr}
    (hj : j ∈ fn.lower.func.code) {v : Value} (hv : v ∈ j.op.refs) :
    ∃ k ∈ fn.lower.func.code, k.op.result? = some v := by
  rcases mem_code_lower.mp hj with hopen | ⟨s, hs⟩
  · obtain ⟨n, -, rfl⟩ := mem_opening hopen
    cases hv
  · obtain ⟨b, i, op, -, -, hop, rfl⟩ := lowers_iff.mp hs
    obtain ⟨x, hx, hxv⟩ := List.mem_filterMap.mp hv
    obtain ⟨_ | a, rfl⟩ := mem_uses_lowerOp? hop hx
    · cases hxv
    · exact exists_result?_eq hfew hs.blocks_ne_nil ((value?_operand hfew a).symm.trans hxv)

/-- A lowered instruction tells its site. -/
theorem origin?_lower {fn : Func} {s : Site} {j : Deadwood.Instr} (h : fn.Lowers s j) :
    fn.lower.origin? j = some s :=
  lookup_of_unique h fun _ ht => Lowers.site_unique ht h

end Func

end Source

end Deadwood
