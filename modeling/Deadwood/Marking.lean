import Deadwood.Fault
import Deadwood.Oracle

/-!
# Marking the necessary instructions

An instruction is **necessary** when it has an effect of its own, or when a necessary instruction
refers to its result. Marking finds these in two phases.

* `scan` goes through the body once. What has an effect of its own (returns, branches, jumps,
  stores, parameters, breakpoints, and calls to callees the oracle does not know to be const) is
  necessary at once, and the values it refers to go on the worklist. A call to a const callee is
  only *provisional*.
* `propagate` takes values off the worklist, last come first. The instruction that defines the value
  becomes necessary, and the values it refers to go on the list in turn. The last position of the
  body that defines a value is the one that counts. A value that nothing defines ends the marking.

An instruction becomes necessary in the second phase once only, and then puts its references on the
worklist. So `budget`, the length of the worklist plus the references at all positions whose
instruction is not yet necessary, falls with every value taken off. It is the measure on which
`propagate` recurses.
-/

namespace Deadwood

/-- What is known of an instruction while marking. -/
inductive Mark where
  | unmarked
  /-- It is a call to a const callee, and may go. -/
  | provisional
  /-- It stays. -/
  | necessary
deriving DecidableEq, Repr, Inhabited

/-- The marks of instructions, the latest first. -/
structure Marks where
  /-- The marks set, the latest first. -/
  entries : List (Instr × Mark)
deriving Repr, Inhabited

namespace Marks

/-- No marks. -/
def none : Marks := ⟨[]⟩

/-- The mark of an instruction. -/
def get (m : Marks) (i : Instr) : Mark := (m.entries.lookup i).getD .unmarked

/-- Mark an instruction. -/
def set (m : Marks) (i : Instr) (k : Mark) : Marks := ⟨(i, k) :: m.entries⟩

/-- Whether an instruction is marked necessary. -/
def keeps (m : Marks) (i : Instr) : Bool := decide (m.get i = .necessary)

@[simp] theorem get_none (i : Instr) : none.get i = .unmarked := rfl

/-- The last mark counts, and other instructions keep theirs. -/
theorem get_set (m : Marks) (i j : Instr) (k : Mark) :
    (m.set i k).get j = if j = i then k else m.get j := by
  unfold get set
  rw [List.lookup_cons]
  by_cases h : j = i
  · simp [h]
  · simp [h, beq_eq_false_iff_ne.mpr h]

end Marks

namespace Marking

/-- Where a marking stands. -/
structure State where
  marks : Marks
  /-- The values whose definitions are still to be marked, the next one first. -/
  work : List Value
deriving Repr, Inhabited

/-- Nothing is marked and nothing is to be done. -/
def State.initial : State := ⟨Marks.none, []⟩

/-- Mark an instruction necessary, and put the values it refers to on the worklist, so that the
last one comes off first. -/
def State.require (s : State) (i : Instr) : State :=
  ⟨s.marks.set i .necessary, i.op.refs.reverse ++ s.work⟩

/-! ## The first phase -/

/-- Mark an instruction for what it does, not for who uses it. -/
def scanInstr (oracle : Oracle) (s : State) (i : Instr) : Except Fault State :=
  match i.op with
  | .ret .. | .branch .. | .jump .. | .store .. | .param .. | .breakpoint => .ok (s.require i)
  | .copy .. | .phi .. => .ok s
  | .call _ callee _ =>
    match oracle.isConst callee with
    | .ok true => .ok { s with marks := s.marks.set i .provisional }
    | .ok false => .ok (s.require i)
    | .error text => .error (.oracle text)
  | .unknown text => .error (.unknownInstr text)

/-- Mark what is necessary whoever uses it. -/
def scan (oracle : Oracle) (code : List Instr) : Except Fault State :=
  code.foldlM (scanInstr oracle) State.initial

/-- The callees that the first phase asks the oracle about, in order. It stops where the phase
fails. -/
def consulted (oracle : Oracle) : List Instr → List Callee
  | [] => []
  | i :: rest =>
    match i.op with
    | .call _ callee _ =>
      match oracle.isConst callee with
      | .ok _ => callee :: consulted oracle rest
      | .error _ => [callee]
    | .unknown _ => []
    | _ => consulted oracle rest

/-! ## The second phase -/

/-- The instruction that defines a value: the one at the last position to do so. -/
def definition? (code : List Instr) (v : Value) : Option Instr :=
  code.reverse.find? fun i => i.op.result? == some v

theorem mem_of_definition? {code : List Instr} {v : Value} {i : Instr}
    (h : definition? code v = some i) : i ∈ code :=
  List.mem_reverse.mp (List.mem_of_find?_eq_some h)

/-- The references that an instruction may still put on the worklist. -/
def pending (marks : Marks) (i : Instr) : Nat := if marks.keeps i then 0 else i.op.refs.length

/-- The references that the positions of the code may still put on the worklist. -/
def outstanding (marks : Marks) : List Instr → Nat
  | [] => 0
  | i :: rest => pending marks i + outstanding marks rest

/-- A bound on the values that can still come off the worklist. -/
def budget (code : List Instr) (s : State) : Nat := s.work.length + outstanding s.marks code

theorem pending_set_self (marks : Marks) (i : Instr) :
    pending (marks.set i .necessary) i = 0 := by
  simp [pending, Marks.keeps, Marks.get_set]

theorem pending_set_of_ne (marks : Marks) {i j : Instr} (h : j ≠ i) :
    pending (marks.set i .necessary) j = pending marks j := by
  simp [pending, Marks.keeps, Marks.get_set, h]

theorem pending_eq {marks : Marks} {i : Instr} (h : marks.get i ≠ .necessary) :
    pending marks i = i.op.refs.length := by
  simp [pending, Marks.keeps, h]

/-- Marking an instruction necessary leaves no more references outstanding. -/
theorem outstanding_set_le (marks : Marks) (i : Instr) (code : List Instr) :
    outstanding (marks.set i .necessary) code ≤ outstanding marks code := by
  induction code with
  | nil => exact Nat.le_refl _
  | cons j rest ih =>
    rw [outstanding, outstanding]
    by_cases h : j = i
    · rw [h, pending_set_self]
      omega
    · rw [pending_set_of_ne marks h]
      omega

/-- Marking an instruction of the code necessary settles at least its own references. -/
theorem outstanding_set {marks : Marks} {i : Instr} {code : List Instr}
    (h : marks.get i ≠ .necessary) (hi : i ∈ code) :
    outstanding (marks.set i .necessary) code + i.op.refs.length ≤ outstanding marks code := by
  induction code with
  | nil => cases hi
  | cons j rest ih =>
    rw [outstanding, outstanding]
    by_cases hj : j = i
    · have := outstanding_set_le marks i rest
      rw [hj, pending_set_self, pending_eq h]
      omega
    · have := ih ((List.mem_cons.mp hi).resolve_left (Ne.symm hj))
      rw [pending_set_of_ne marks hj]
      omega

/-- Take a value off the worklist: the instruction that defines it becomes necessary, if it was not
so before. -/
def pop (code : List Instr) (marks : Marks) (v : Value) (rest : List Value) :
    Except Value State :=
  match definition? code v with
  | none => .error v
  | some i => .ok (if marks.keeps i then ⟨marks, rest⟩ else State.require ⟨marks, rest⟩ i)

/-- Every value taken off uses up some of the budget. -/
theorem budget_pop {code : List Instr} {marks : Marks} {v : Value} {rest : List Value} {t : State}
    (h : pop code marks v rest = .ok t) : budget code t < budget code ⟨marks, v :: rest⟩ := by
  unfold pop at h
  split at h
  case h_1 => cases h
  case h_2 i hd =>
    cases h
    by_cases hk : marks.keeps i
    · simp only [hk, if_true, budget, List.length_cons]
      omega
    · have hn : marks.get i ≠ .necessary := by simpa [Marks.keeps] using hk
      have := outstanding_set hn (mem_of_definition? hd)
      rw [if_neg hk]
      simp only [budget, State.require, List.length_append, List.length_reverse, List.length_cons]
      omega

/-- Follow references to definitions until the worklist is empty, or fail with a value that nothing
defines. -/
def propagate (code : List Instr) : State → Except Value State
  | ⟨marks, []⟩ => .ok ⟨marks, []⟩
  | ⟨marks, v :: rest⟩ =>
    match _ : pop code marks v rest with
    | .error u => .error u
    | .ok t => propagate code t
termination_by s => budget code s
decreasing_by
  rename_i h
  exact budget_pop h

/-- Mark the instructions of a function. -/
def run (oracle : Oracle) (fn : Func) : Except Fault Marks := do
  let s ← scan oracle fn.code
  match propagate fn.code s with
  | .ok t => return t.marks
  | .error v => throw (.violation (.undefined fn.name v))

end Marking

end Deadwood
