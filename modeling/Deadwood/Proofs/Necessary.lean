import Deadwood.Marking

/-!
# The necessary instructions

Which instructions of a function are necessary is a matter of its code alone, not of the order in
which a marking visits it. `Necessary oracle code` is the least set of instructions that

* contains the **roots**: what the code holds and has an effect of its own, and
* with each instruction contains, for every value it refers to, the instruction at the last position
  of the code that defines the value.

**Theorem (`run_ok`, `run_fault`, `run_of_no_fault`).** A marking that succeeds marks exactly these
instructions. The first phase fails on the first instruction it cannot judge. The second phase fails
only on a value that a necessary instruction refers to and nothing defines, and a marking that
succeeds leaves no such value.

The first phase is described exactly: after it an instruction of the code has the mark its operation
calls for, whatever else the code holds (`Scanned`). The second phase keeps an invariant with two
halves (`Justified`). What is marked necessary is necessary, and what a necessary mark asks for is
marked as well or still on the worklist. When the worklist is empty, the second half says that the
marked set is closed, so it contains the least closed set, and the first half gives equality.
-/

namespace Deadwood

/-! ## The definition that counts -/

/-- `i` stands at the last position of the code that defines `v`. -/
def LastDefines (code : List Instr) (v : Value) (i : Instr) : Prop :=
  ∃ before after, code = before ++ i :: after ∧ i.op.result? = some v ∧
    ∀ j ∈ after, j.op.result? ≠ some v

/-- No position of the code defines `v`. -/
def Undefined (code : List Instr) (v : Value) : Prop := ∀ i ∈ code, i.op.result? ≠ some v

theorem LastDefines.mem {code : List Instr} {v : Value} {i : Instr} (h : LastDefines code v i) :
    i ∈ code := by
  obtain ⟨before, after, rfl, -, -⟩ := h
  exact List.mem_append_right _ List.mem_cons_self

theorem LastDefines.result {code : List Instr} {v : Value} {i : Instr}
    (h : LastDefines code v i) : i.op.result? = some v := by
  obtain ⟨-, -, -, hi, -⟩ := h
  exact hi

namespace Marking

theorem definition?_eq_some_iff {code : List Instr} {v : Value} {i : Instr} :
    definition? code v = some i ↔ LastDefines code v i := by
  unfold definition?
  rw [List.find?_eq_some_iff_append]
  constructor
  · rintro ⟨hi, before, after, hcode, hbefore⟩
    refine ⟨after.reverse, before.reverse, ?_, by simpa using hi, fun j hj => ?_⟩
    · rw [← List.reverse_reverse code, hcode]
      simp
    · simpa using hbefore j (List.mem_reverse.mp hj)
  · rintro ⟨before, after, rfl, hi, hafter⟩
    refine ⟨by simpa using hi, after.reverse, before.reverse, by simp, fun j hj => ?_⟩
    simpa using hafter j (List.mem_reverse.mp hj)

theorem definition?_eq_none_iff {code : List Instr} {v : Value} :
    definition? code v = none ↔ Undefined code v := by
  simp [definition?, Undefined]

end Marking

theorem LastDefines.unique {code : List Instr} {v : Value} {i j : Instr}
    (hi : LastDefines code v i) (hj : LastDefines code v j) : i = j := by
  rw [← Marking.definition?_eq_some_iff] at hi hj
  exact Option.some.inj (hi.symm.trans hj)

/-- A value has a definition that counts, or none at all. -/
theorem lastDefines_or_undefined (code : List Instr) (v : Value) :
    (∃ i, LastDefines code v i) ∨ Undefined code v := by
  cases h : Marking.definition? code v with
  | none => exact Or.inr (Marking.definition?_eq_none_iff.mp h)
  | some i => exact Or.inl ⟨i, Marking.definition?_eq_some_iff.mp h⟩

theorem lastDefines_of_unique {code : List Instr} {v : Value} {i : Instr}
    (hi : i ∈ code) (hv : i.op.result? = some v)
    (hunique : ∀ j ∈ code, j.op.result? = some v → j = i) : LastDefines code v i := by
  rcases lastDefines_or_undefined code v with ⟨j, hj⟩ | hundef
  · obtain rfl := hunique j hj.mem hj.result
    exact hj
  · exact absurd hv (hundef i hi)

theorem LastDefines.not_undefined {code : List Instr} {v : Value} {i : Instr}
    (h : LastDefines code v i) : ¬ Undefined code v :=
  fun hu => hu i h.mem h.result

/-! ## Roots and what follows from them -/

/-- Whether the oracle is sure that calls to the callee have no observable effect. -/
def Oracle.vouches (oracle : Oracle) (callee : Callee) : Bool :=
  match oracle.isConst callee with
  | .ok true => true
  | _ => false

@[simp] theorem Oracle.vouches_ofRule (rule : Callee → Bool) (callee : Callee) :
    (Oracle.ofRule rule).vouches callee = rule callee := by
  cases h : rule callee <;> simp [Oracle.vouches, Oracle.ofRule, h]

namespace Op

/-- Whether the operation has an effect of its own: it returns, sends control, stores, reads a
parameter, stops for a debugger, or calls someone the oracle does not vouch for. -/
def isRoot (oracle : Oracle) : Op → Bool
  | ret .. | branch .. | jump .. | store .. | param .. | breakpoint => true
  | call _ callee _ => !oracle.vouches callee
  | copy .. | phi .. | unknown .. => false

/-- Whether the operation calls someone the oracle vouches for. -/
def isConstCall (oracle : Oracle) : Op → Bool
  | call _ callee _ => oracle.vouches callee
  | _ => false

/-- The fault of an operation that the first phase cannot judge: it is unknown, or the oracle fails
on whom it calls. -/
def fault? (oracle : Oracle) : Op → Option Fault
  | unknown text => some (.unknownInstr text)
  | call _ callee _ =>
    match oracle.isConst callee with
    | .ok _ => none
    | .error text => some (.oracle text)
  | _ => none

theorem fault?_ofRule {op : Op} (h : op.isKnown = true) (rule : Callee → Bool) :
    op.fault? (.ofRule rule) = none := by
  cases op with
  | unknown text => cases h
  | _ => rfl

end Op

/-- The necessary instructions of a code: its roots, and the definitions that they depend on. -/
inductive Necessary (oracle : Oracle) (code : List Instr) : Instr → Prop
  | root {i : Instr} : i ∈ code → i.op.isRoot oracle = true → Necessary oracle code i
  | operand {i j : Instr} {v : Value} : Necessary oracle code i → v ∈ i.op.refs →
      LastDefines code v j → Necessary oracle code j

theorem Necessary.mem {oracle : Oracle} {code : List Instr} {i : Instr}
    (h : Necessary oracle code i) : i ∈ code := by
  cases h with
  | root hi _ => exact hi
  | operand _ _ hd => exact hd.mem

/-- Every value that a necessary instruction refers to has a definition. -/
def Resolved (oracle : Oracle) (code : List Instr) : Prop :=
  ∀ i, Necessary oracle code i → ∀ v ∈ i.op.refs, ¬ Undefined code v

/-! ## The first phase -/

namespace Marking

/-- The mark that an operation calls for whoever uses it. -/
def firstMark (oracle : Oracle) (op : Op) : Mark :=
  if op.isRoot oracle then .necessary
  else if op.isConstCall oracle then .provisional
  else .unmarked

/-- Give an instruction the mark that its operation calls for. -/
def State.visit (oracle : Oracle) (s : State) (i : Instr) : State :=
  match firstMark oracle i.op with
  | .necessary => s.require i
  | .provisional => { s with marks := s.marks.set i .provisional }
  | .unmarked => s

theorem scanInstr_eq (oracle : Oracle) (s : State) (i : Instr) :
    scanInstr oracle s i =
      match i.op.fault? oracle with
      | some f => .error f
      | none => .ok (s.visit oracle i) := by
  obtain ⟨tag, op⟩ := i
  cases op with
  | call dst callee args =>
    cases h : oracle.isConst callee with
    | error text => simp [scanInstr, Op.fault?, h]
    | ok b =>
      cases b <;> simp [scanInstr, Op.fault?, State.visit, firstMark, Op.isRoot, Op.isConstCall,
        Oracle.vouches, h]
  | _ => rfl

theorem eq_visit_of_scanInstr {oracle : Oracle} {s t : State} {i : Instr}
    (h : scanInstr oracle s i = .ok t) : t = s.visit oracle i := by
  rw [scanInstr_eq] at h
  split at h
  case h_1 => cases h
  case h_2 =>
    cases h
    rfl

/-- The first phase fails with the fault of the first instruction that has one, and otherwise
visits them all. -/
theorem foldlM_scanInstr (oracle : Oracle) (code : List Instr) (s : State) :
    code.foldlM (scanInstr oracle) s =
      match code.findSome? (·.op.fault? oracle) with
      | some f => .error f
      | none => .ok (code.foldl (State.visit oracle) s) := by
  induction code generalizing s with
  | nil => rfl
  | cons i rest ih =>
    rw [List.foldlM_cons, scanInstr_eq, List.findSome?_cons]
    cases i.op.fault? oracle with
    | some f => rfl
    | none => exact ih (s.visit oracle i)

theorem scan_eq (oracle : Oracle) (code : List Instr) :
    scan oracle code =
      match code.findSome? (·.op.fault? oracle) with
      | some f => .error f
      | none => .ok (code.foldl (State.visit oracle) State.initial) :=
  foldlM_scanInstr oracle code State.initial

/-- What the first phase has established when it has gone through `done`. -/
structure Scanned (oracle : Oracle) (done : List Instr) (s : State) : Prop where
  marked : ∀ i ∈ done, s.marks.get i = firstMark oracle i.op
  unmarked : ∀ i, i ∉ done → s.marks.get i = .unmarked
  work : ∀ v, v ∈ s.work ↔ ∃ i ∈ done, i.op.isRoot oracle = true ∧ v ∈ i.op.refs

theorem scanned_initial (oracle : Oracle) : Scanned oracle [] State.initial :=
  ⟨by simp, fun i _ => Marks.get_none i, by simp [State.initial]⟩

theorem get_visit (oracle : Oracle) (s : State) (i j : Instr) :
    (s.visit oracle i).marks.get j =
      if j = i ∧ firstMark oracle i.op ≠ .unmarked then firstMark oracle i.op
      else s.marks.get j := by
  unfold State.visit
  cases firstMark oracle i.op <;> simp [State.require, Marks.get_set]

theorem firstMark_eq_necessary_iff {oracle : Oracle} {op : Op} :
    firstMark oracle op = .necessary ↔ op.isRoot oracle = true := by
  unfold firstMark
  split
  case isTrue h => simp [h]
  case isFalse h => split <;> simp [h]

/-- A visit puts the references of a root on the worklist, and nothing else. -/
theorem work_visit (oracle : Oracle) (s : State) (i : Instr) :
    (s.visit oracle i).work =
      ([i].filter (·.op.isRoot oracle)).flatMap (·.op.refs.reverse) ++ s.work := by
  rw [State.visit, firstMark]
  cases hroot : i.op.isRoot oracle <;> cases hconst : i.op.isConstCall oracle <;>
    simp [State.require, hroot]

theorem mem_work_visit (oracle : Oracle) (s : State) (i : Instr) (v : Value) :
    v ∈ (s.visit oracle i).work ↔ v ∈ s.work ∨ i.op.isRoot oracle = true ∧ v ∈ i.op.refs := by
  rw [work_visit]
  cases hroot : i.op.isRoot oracle <;> simp [hroot, or_comm]

theorem Scanned.visit {oracle : Oracle} {done : List Instr} {s : State}
    (h : Scanned oracle done s) (i : Instr) :
    Scanned oracle (done ++ [i]) (s.visit oracle i) where
  marked j hj := by
    rw [get_visit]
    split
    case isTrue hji => rw [hji.1]
    case isFalse hji =>
      by_cases hd : j ∈ done
      · exact h.marked j hd
      · -- A new instruction that stays as it was is one that calls for no mark.
        obtain rfl : j = i := by simpa [hd] using hj
        have hnone : firstMark oracle j.op = .unmarked := by simpa using hji
        rw [h.unmarked j hd, hnone]
  unmarked j hj := by
    simp only [List.mem_append, List.mem_singleton, not_or] at hj
    rw [get_visit, if_neg (fun hji => hj.2 hji.1)]
    exact h.unmarked j hj.1
  work v := by
    rw [mem_work_visit, h.work]
    simp only [List.mem_append, List.mem_singleton]
    constructor
    · rintro (⟨j, hj, hv⟩ | hv)
      · exact ⟨j, Or.inl hj, hv⟩
      · exact ⟨i, Or.inr rfl, hv⟩
    · rintro ⟨j, hj | rfl, hv⟩
      · exact Or.inl ⟨j, hj, hv⟩
      · exact Or.inr hv

theorem Scanned.foldl {oracle : Oracle} {done : List Instr} {s : State}
    (h : Scanned oracle done s) (code : List Instr) :
    Scanned oracle (done ++ code) (code.foldl (State.visit oracle) s) := by
  induction code generalizing done s with
  | nil => simpa using h
  | cons i rest ih => simpa using ih (h.visit i)

/-- After the first phase, every instruction of the code has the mark its operation calls for. -/
theorem scanned_of_scan {oracle : Oracle} {code : List Instr} {s : State}
    (h : scan oracle code = .ok s) : Scanned oracle code s := by
  rw [scan_eq] at h
  split at h
  · cases h
  · cases h
    simpa using (scanned_initial oracle).foldl code

/-! ## The second phase -/

/-- What holds of a marking that follows references: the necessary marks are justified, and what
they ask for is marked or still to be done. -/
structure Justified (oracle : Oracle) (code : List Instr) (s : State) : Prop where
  sound : ∀ i, s.marks.keeps i = true → Necessary oracle code i
  asked : ∀ v ∈ s.work, ∃ i, s.marks.keeps i = true ∧ v ∈ i.op.refs
  rooted : ∀ i ∈ code, i.op.isRoot oracle = true → s.marks.keeps i = true
  closed : ∀ i, s.marks.keeps i = true → ∀ v ∈ i.op.refs,
    v ∈ s.work ∨ ∃ j, LastDefines code v j ∧ s.marks.keeps j = true

theorem Scanned.keeps_iff {oracle : Oracle} {code : List Instr} {s : State}
    (h : Scanned oracle code s) (i : Instr) :
    s.marks.keeps i = true ↔ i ∈ code ∧ i.op.isRoot oracle = true := by
  unfold Marks.keeps
  rw [decide_eq_true_iff]
  by_cases hi : i ∈ code
  · rw [h.marked i hi, firstMark_eq_necessary_iff]
    simp [hi]
  · rw [h.unmarked i hi]
    simp [hi]

theorem Scanned.justified {oracle : Oracle} {code : List Instr} {s : State}
    (h : Scanned oracle code s) : Justified oracle code s where
  sound i hi := by
    obtain ⟨hmem, hroot⟩ := (h.keeps_iff i).mp hi
    exact .root hmem hroot
  asked v hv := by
    obtain ⟨i, hi, hroot, hv⟩ := (h.work v).mp hv
    exact ⟨i, (h.keeps_iff i).mpr ⟨hi, hroot⟩, hv⟩
  rooted i hi hroot := (h.keeps_iff i).mpr ⟨hi, hroot⟩
  closed i hi v hv := by
    obtain ⟨hmem, hroot⟩ := (h.keeps_iff i).mp hi
    exact Or.inl ((h.work v).mpr ⟨i, hmem, hroot, hv⟩)

theorem pop_eq_ok {code : List Instr} {marks : Marks} {v : Value} {rest : List Value} {t : State}
    (h : pop code marks v rest = .ok t) :
    ∃ i, LastDefines code v i ∧
      (marks.keeps i = true ∧ t = ⟨marks, rest⟩ ∨
        marks.keeps i = false ∧ t = State.require ⟨marks, rest⟩ i) := by
  unfold pop at h
  split at h
  case h_1 => cases h
  case h_2 i hd =>
    cases h
    refine ⟨i, definition?_eq_some_iff.mp hd, ?_⟩
    cases hk : marks.keeps i <;> simp

theorem pop_eq_error {code : List Instr} {marks : Marks} {u v : Value} {rest : List Value}
    (h : pop code marks v rest = .error u) : u = v ∧ Undefined code v := by
  unfold pop at h
  split at h
  case h_1 hd =>
    cases h
    exact ⟨rfl, definition?_eq_none_iff.mp hd⟩
  case h_2 => cases h

theorem keeps_require (s : State) (i j : Instr) :
    (s.require i).marks.keeps j = true ↔ j = i ∨ s.marks.keeps j = true := by
  unfold Marks.keeps State.require
  rw [decide_eq_true_iff, decide_eq_true_iff, Marks.get_set]
  by_cases h : j = i <;> simp [h]

/-- Taking a value off the worklist keeps the invariant. -/
theorem Justified.pop {oracle : Oracle} {code : List Instr} {marks : Marks} {v : Value}
    {rest : List Value} {t : State} (h : Justified oracle code ⟨marks, v :: rest⟩)
    (hpop : pop code marks v rest = .ok t) : Justified oracle code t := by
  obtain ⟨i, hd, ⟨hk, rfl⟩ | ⟨-, rfl⟩⟩ := pop_eq_ok hpop
  · refine ⟨h.sound, fun u hu => h.asked u (List.mem_cons_of_mem v hu), h.rooted, ?_⟩
    intro j hj u hu
    rcases h.closed j hj u hu with hw | hw
    · rcases List.mem_cons.mp hw with rfl | hw
      · exact Or.inr ⟨i, hd, hk⟩
      · exact Or.inl hw
    · exact Or.inr hw
  · -- The value came from a marked instruction, so its definition is necessary.
    obtain ⟨k, hk, hv⟩ := h.asked v List.mem_cons_self
    have hi : Necessary oracle code i := .operand (h.sound k hk) hv hd
    have hkeep : ∀ j, marks.keeps j = true → (State.require ⟨marks, rest⟩ i).marks.keeps j = true :=
      fun j hj => (keeps_require _ i j).mpr (Or.inr hj)
    refine ⟨fun j hj => ?_, fun u hu => ?_, fun j hj hr => hkeep j (h.rooted j hj hr), ?_⟩
    · rcases (keeps_require _ i j).mp hj with rfl | hj
      · exact hi
      · exact h.sound j hj
    · rcases List.mem_append.mp hu with hu | hu
      · exact ⟨i, (keeps_require _ i i).mpr (Or.inl rfl), List.mem_reverse.mp hu⟩
      · obtain ⟨j, hj, hu⟩ := h.asked u (List.mem_cons_of_mem v hu)
        exact ⟨j, hkeep j hj, hu⟩
    · intro j hj u hu
      rcases (keeps_require _ i j).mp hj with rfl | hj
      · exact Or.inl (List.mem_append_left _ (List.mem_reverse.mpr hu))
      · rcases h.closed j hj u hu with hw | ⟨l, hl, hkl⟩
        · rcases List.mem_cons.mp hw with rfl | hw
          · exact Or.inr ⟨i, hd, (keeps_require _ i i).mpr (Or.inl rfl)⟩
          · exact Or.inl (List.mem_append_right _ hw)
        · exact Or.inr ⟨l, hl, hkeep l hkl⟩

/-- The second phase keeps the invariant to its end, where nothing is left to do. -/
theorem Justified.propagate {oracle : Oracle} {code : List Instr} {s t : State}
    (h : Justified oracle code s) (hrun : propagate code s = .ok t) :
    Justified oracle code t ∧ t.work = [] := by
  fun_induction Marking.propagate code s with
  | case1 marks =>
    cases hrun
    exact ⟨h, rfl⟩
  | case2 => cases hrun
  | case3 marks v rest u hpop ih => exact ih (h.pop hpop) hrun

/-- The second phase fails only on a value that a necessary instruction refers to and nothing
defines. -/
theorem Justified.propagate_error {oracle : Oracle} {code : List Instr} {s : State} {v : Value}
    (h : Justified oracle code s) (hrun : Marking.propagate code s = .error v) :
    (∃ i, Necessary oracle code i ∧ v ∈ i.op.refs) ∧ Undefined code v := by
  fun_induction Marking.propagate code s with
  | case1 => cases hrun
  | case2 marks w rest u hpop =>
    cases hrun
    obtain ⟨rfl, hu⟩ := pop_eq_error hpop
    obtain ⟨i, hi, hv⟩ := h.asked v List.mem_cons_self
    exact ⟨⟨i, h.sound i hi, hv⟩, hu⟩
  | case3 marks w rest u hpop ih => exact ih (h.pop hpop) hrun

/-- With nothing left to do, exactly the necessary instructions are marked. -/
theorem Justified.keeps_iff {oracle : Oracle} {code : List Instr} {s : State}
    (h : Justified oracle code s) (hwork : s.work = []) (i : Instr) :
    s.marks.keeps i = true ↔ Necessary oracle code i := by
  refine ⟨h.sound i, fun hi => ?_⟩
  induction hi with
  | root hmem hroot => exact h.rooted _ hmem hroot
  | @operand i j v _ hv hd ih =>
    rcases h.closed i ih v hv with hw | ⟨k, hk, hkeep⟩
    · rw [hwork] at hw
      cases hw
    · rwa [hd.unique hk]

/-- With nothing left to do, every value that a necessary instruction refers to is defined. -/
theorem Justified.resolved {oracle : Oracle} {code : List Instr} {s : State}
    (h : Justified oracle code s) (hwork : s.work = []) : Resolved oracle code := by
  intro i hi v hv
  rcases h.closed i ((h.keeps_iff hwork i).mpr hi) v hv with hw | ⟨j, hj, -⟩
  · rw [hwork] at hw
    cases hw
  · exact hj.not_undefined

/-! ## Marking -/

/-- How a marking ends that the first phase lets pass. -/
theorem run_eq_of_scan {oracle : Oracle} {fn : Func} {s : State}
    (h : scan oracle fn.code = .ok s) :
    run oracle fn =
      match propagate fn.code s with
      | .ok t => .ok t.marks
      | .error v => .error (.violation (.undefined fn.name v)) := by
  unfold run
  rw [h]
  rfl

theorem scan_isOk {oracle : Oracle} {code : List Instr}
    (h : ∀ i ∈ code, i.op.fault? oracle = none) : ∃ s, scan oracle code = .ok s := by
  rw [scan_eq, List.findSome?_eq_none_iff.mpr h]
  exact ⟨_, rfl⟩

/-- **A marking that succeeds marks exactly the necessary instructions.** -/
theorem run_ok {oracle : Oracle} {fn : Func} {marks : Marks} (h : run oracle fn = .ok marks) :
    (∀ i, marks.keeps i = true ↔ Necessary oracle fn.code i) ∧ Resolved oracle fn.code := by
  cases hs : scan oracle fn.code with
  | error f =>
    unfold run at h
    rw [hs] at h
    cases h
  | ok s =>
    rw [run_eq_of_scan hs] at h
    split at h
    case h_2 => cases h
    case h_1 t ht =>
      cases h
      obtain ⟨hj, hw⟩ := (scanned_of_scan hs).justified.propagate ht
      exact ⟨hj.keeps_iff hw, hj.resolved hw⟩

/-- A marking fails with the fault of the first instruction that has one. -/
theorem run_fault {oracle : Oracle} {fn : Func} {f : Fault}
    (h : fn.code.findSome? (·.op.fault? oracle) = some f) : run oracle fn = .error f := by
  unfold run
  rw [scan_eq, h]
  rfl

/-- **A marking without such an instruction** succeeds if every reference of a necessary
instruction is resolved, and otherwise fails on one that is not. -/
theorem run_of_no_fault {oracle : Oracle} {fn : Func}
    (h : fn.code.findSome? (·.op.fault? oracle) = none) :
    (∃ marks, run oracle fn = .ok marks) ∨
      ∃ v, run oracle fn = .error (.violation (.undefined fn.name v)) ∧ Undefined fn.code v ∧
        ∃ i, Necessary oracle fn.code i ∧ v ∈ i.op.refs := by
  obtain ⟨s, hs⟩ := scan_isOk (List.findSome?_eq_none_iff.mp h)
  have hj := (scanned_of_scan hs).justified
  rw [run_eq_of_scan hs]
  cases hp : propagate fn.code s with
  | ok t => exact Or.inl ⟨t.marks, rfl⟩
  | error v =>
    obtain ⟨hv, hu⟩ := hj.propagate_error hp
    exact Or.inr ⟨v, rfl, hu, hv⟩

end Marking

end Deadwood
