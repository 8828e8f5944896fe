import Deadwood.Proofs.MarkingSteps

/-!
# A marking ends

Propagation puts values on the worklist while it takes them off, and a value may come back after it
has been dealt with. So the length of the worklist says nothing about how long this goes on. What
falls with every value taken off is the `budget`, in which the references of all that is not yet
necessary count as well.

**Theorem (`marking_ends`).** There is no endless sequence of steps, and propagation reaches an empty
worklist or a value that nothing defines. No instruction becomes necessary twice by propagation, and
a whole marking puts no more values on the worklist than there are references in the code, position
by position.

The budget does not give the last bound, since the first phase requires a root again at every
position where it stands. What holds in both phases is that the instructions required so far, each as
often as it was required, are a selection of the positions of the code (`Charged.required_subperm`).
A visit pays with the position visited. A promotion pays with a position of the instruction promoted,
which is no root, so that no visit has paid with it.
-/

namespace Deadwood

namespace Marking

variable {oracle : Oracle} {code done : List Instr} {p q : Point} {pushed : List Value}
  {promoted : List Instr}

/-! ## No endless marking -/

/-- What is left to do: instructions to visit, and then values to take off the worklist. -/
def Point.remaining (code : List Instr) (p : Point) : ℕ ×ₗ ℕ :=
  toLex (p.todo.length, budget code p.state)

theorem Step.remaining_lt (h : Step oracle code p q) : q.remaining code < p.remaining code := by
  cases h with
  | visit hi => exact Prod.Lex.left _ _ (Nat.lt_succ_self _)
  | take hpop => exact Prod.Lex.right _ (budget_pop hpop)

theorem step_wellFounded (oracle : Oracle) (code : List Instr) :
    WellFounded (flip (Step oracle code)) :=
  (InvImage.wf (Point.remaining code) wellFounded_lt).mono fun _ _ h => Step.remaining_lt h

/-! ## Markings with a record of what they do -/

/-- The instructions of the list, which holds each once, are those that become necessary. -/
def Promotes (before after : Marks) (new : List Instr) : Prop :=
  new.Nodup ∧ ∀ i, i ∈ new ↔ before.get i ≠ .necessary ∧ after.get i = .necessary

/-- The steps that lead to a point, with the values that they have put on the worklist and the
instructions that have become necessary by propagation, the latest first. -/
inductive Trace (oracle : Oracle) (code : List Instr) : Point → List Value → List Instr → Prop
  | start : Trace oracle code (.start code) [] []
  | visit {i : Instr} {rest : List Instr} {s t : State} {taken pushed new : List Value}
      {promoted : List Instr} :
      Trace oracle code ⟨i :: rest, s, taken⟩ pushed promoted → scanInstr oracle s i = .ok t →
      t.work = new ++ s.work → Trace oracle code ⟨rest, t, taken⟩ (new ++ pushed) promoted
  | take {marks : Marks} {v : Value} {t : State} {rest taken pushed new : List Value}
      {promoted newly : List Instr} :
      Trace oracle code ⟨[], ⟨marks, v :: rest⟩, taken⟩ pushed promoted →
      pop code marks v rest = .ok t → t.work = new ++ rest → Promotes marks t.marks newly →
      Trace oracle code ⟨[], t, v :: taken⟩ (new ++ pushed) (newly ++ promoted)

theorem Trace.reaches (h : Trace oracle code p pushed promoted) :
    Reaches oracle code (.start code) p := by
  induction h with
  | start => exact .refl
  | visit _ hi _ ih => exact ih.tail (.visit hi)
  | take _ hpop _ _ ih => exact ih.tail (.take hpop)

theorem Trace.coherent (h : Trace oracle code p pushed promoted) : Coherent oracle code p :=
  (coherent_start oracle code).reaches h.reaches

/-- Every value put on the worklist waits there or has been taken off. -/
theorem Trace.length_taken_add_length_work (h : Trace oracle code p pushed promoted) :
    p.taken.length + p.state.work.length = pushed.length := by
  induction h with
  | start => rfl
  | visit _ _ hwork ih =>
    simp only [hwork, List.length_append] at ih ⊢
    omega
  | take _ _ hwork _ ih =>
    simp only [hwork, List.length_append, List.length_cons] at ih ⊢
    omega

theorem Promotes.perm {before after : Marks} {new new' : List Instr}
    (h : Promotes before after new) (h' : Promotes before after new') : new.Perm new' :=
  (List.perm_ext_iff_of_nodup h.1 h'.1).mpr fun i => (h.2 i).trans (h'.2 i).symm

theorem promotes_nil (marks : Marks) : Promotes marks marks [] :=
  ⟨List.nodup_nil, fun i => by simp⟩

theorem promotes_require (s : State) {i : Instr} (h : s.marks.get i ≠ .necessary) :
    Promotes s.marks (s.require i).marks [i] := by
  refine ⟨List.nodup_singleton i, fun j => ?_⟩
  rw [List.mem_singleton, State.require, Marks.get_set]
  by_cases hj : j = i
  · simp [hj, h]
  · simp [hj]

/-- A value taken off makes instructions of the code necessary, and puts their references on the
worklist. -/
theorem pop_promotes {marks : Marks} {v : Value} {rest : List Value} {t : State}
    (h : pop code marks v rest = .ok t) :
    ∃ newly, Promotes marks t.marks newly ∧ (∀ i ∈ newly, i ∈ code) ∧
      t.work = newly.flatMap (·.op.refs.reverse) ++ rest := by
  obtain ⟨i, hdef, ⟨-, rfl⟩ | ⟨hk, rfl⟩⟩ := pop_eq_ok h
  · exact ⟨[], promotes_nil marks, by simp, rfl⟩
  · have hmark : marks.get i ≠ .necessary := of_decide_eq_false hk
    refine ⟨[i], promotes_require ⟨marks, rest⟩ hmark, ?_, by simp [State.require]⟩
    intro j hj
    rw [List.mem_singleton.mp hj]
    exact hdef.mem

/-- The record can be kept along any steps. -/
theorem exists_trace (h : Reaches oracle code (.start code) p) :
    ∃ pushed promoted, Trace oracle code p pushed promoted := by
  induction h with
  | refl => exact ⟨[], [], .start⟩
  | tail _ hstep ih =>
    obtain ⟨pushed, promoted, htrace⟩ := ih
    cases hstep with
    | @visit i _ s _ _ hi =>
      have hwork := work_visit oracle s i
      rw [← eq_visit_of_scanInstr hi] at hwork
      exact ⟨_, _, htrace.visit hi hwork⟩
    | take hpop =>
      obtain ⟨newly, hnewly, -, hwork⟩ := pop_promotes hpop
      exact ⟨_, _, htrace.take hpop hwork hnewly⟩

/-! ## Every push is paid for by a position -/

/-- What a marking has put on the worklist is what was referred to by the roots among the
instructions visited, which are `done`, and by the instructions promoted. -/
structure Charged (oracle : Oracle) (code done : List Instr) (p : Point) (pushed : List Value)
    (promoted : List Instr) : Prop where
  visited : code = done ++ p.todo
  rooted : ∀ i ∈ done, i.op.isRoot oracle = true → p.mark i = .necessary
  nodup : promoted.Nodup
  unrooted : ∀ i ∈ promoted, i ∈ code ∧ i.op.isRoot oracle = false ∧ p.mark i = .necessary
  paid : pushed.Perm ((promoted ++ done.filter (·.op.isRoot oracle)).flatMap (·.op.refs))

theorem flatMap_reverse_perm (is : List Instr) :
    (is.flatMap (·.op.refs.reverse)).Perm (is.flatMap (·.op.refs)) :=
  List.Perm.flatMap_left is fun i _ => List.reverse_perm i.op.refs

theorem Coherent.necessary_of_step (h : Coherent oracle code p) (hstep : Step oracle code p q)
    {i : Instr} (hi : p.mark i = .necessary) : q.mark i = .necessary :=
  Mark.eq_necessary_of_rank_le (hi ▸ h.rank_step_le hstep i)

theorem charged_start (oracle : Oracle) (code : List Instr) :
    Charged oracle code [] (.start code) [] [] where
  visited := rfl
  rooted _ hi := by cases hi
  nodup := List.nodup_nil
  unrooted _ hi := by cases hi
  paid := .refl []

theorem Charged.visit {i : Instr} {rest : List Instr} {s t : State} {taken new : List Value}
    (h : Charged oracle code done ⟨i :: rest, s, taken⟩ pushed promoted)
    (hc : Coherent oracle code ⟨i :: rest, s, taken⟩) (hi : scanInstr oracle s i = .ok t)
    (hwork : t.work = new ++ s.work) :
    Charged oracle code (done ++ [i]) ⟨rest, t, taken⟩ (new ++ pushed) promoted := by
  have hkept : ∀ j, s.marks.get j = .necessary → t.marks.get j = .necessary :=
    fun j hj => hc.necessary_of_step (.visit hi) hj
  have ht := eq_visit_of_scanInstr hi
  refine ⟨by simpa using h.visited, fun j hj hroot => ?_, h.nodup, fun j hj => ?_, ?_⟩
  · rcases List.mem_append.mp hj with hj | hj
    · exact hkept j (h.rooted j hj hroot)
    · obtain rfl := List.mem_singleton.mp hj
      have hfirst := firstMark_eq_necessary_iff.mpr hroot
      rw [Point.mark, ht, get_visit, hfirst]
      simp
  · obtain ⟨hmem, hroot, hmark⟩ := h.unrooted j hj
    exact ⟨hmem, hroot, hkept j hmark⟩
  · have hnew : new = ([i].filter (·.op.isRoot oracle)).flatMap (·.op.refs.reverse) := by
      rw [ht, work_visit] at hwork
      exact (List.append_cancel_right hwork).symm
    rw [List.filter_append, ← List.append_assoc, List.flatMap_append, hnew]
    exact ((flatMap_reverse_perm _).append h.paid).trans List.perm_append_comm

theorem Charged.take {marks : Marks} {v : Value} {t : State} {rest taken new : List Value}
    {newly : List Instr} (h : Charged oracle code done ⟨[], ⟨marks, v :: rest⟩, taken⟩ pushed promoted)
    (hc : Coherent oracle code ⟨[], ⟨marks, v :: rest⟩, taken⟩)
    (hpop : pop code marks v rest = .ok t) (hwork : t.work = new ++ rest)
    (hnewly : Promotes marks t.marks newly) :
    Charged oracle code done ⟨[], t, v :: taken⟩ (new ++ pushed) (newly ++ promoted) := by
  have hkept : ∀ j, marks.get j = .necessary → t.marks.get j = .necessary :=
    fun j hj => hc.necessary_of_step (.take hpop) hj
  have hdone : code = done := by simpa using h.visited
  obtain ⟨newly', hnewly', hcode, hwork'⟩ := pop_promotes hpop
  have hperm : newly'.Perm newly := hnewly'.perm hnewly
  refine ⟨h.visited, fun j hj hroot => hkept j (h.rooted j hj hroot), ?_, fun j hj => ?_, ?_⟩
  · refine List.nodup_append'.mpr ⟨hnewly.1, h.nodup, fun j hj hj' => ?_⟩
    exact ((hnewly.2 j).mp hj).1 (h.unrooted j hj').2.2
  · rcases List.mem_append.mp hj with hj | hj
    · -- All roots are necessary by now, so what becomes so is none of them.
      obtain ⟨hbefore, hafter⟩ := (hnewly.2 j).mp hj
      have hmem : j ∈ code := hcode j (hperm.mem_iff.mpr hj)
      refine ⟨hmem, ?_, hafter⟩
      by_contra hroot
      exact hbefore (h.rooted j (hdone ▸ hmem) (by simpa using hroot))
    · obtain ⟨hmem, hroot, hmark⟩ := h.unrooted j hj
      exact ⟨hmem, hroot, hkept j hmark⟩
  · have hnew : new = newly'.flatMap (·.op.refs.reverse) :=
      (List.append_cancel_right (hwork'.symm.trans hwork)).symm
    rw [List.append_assoc, List.flatMap_append, hnew]
    exact ((flatMap_reverse_perm newly').trans (hperm.flatMap_right _)).append h.paid

theorem Trace.charged (h : Trace oracle code p pushed promoted) :
    ∃ done, Charged oracle code done p pushed promoted := by
  induction h with
  | start => exact ⟨[], charged_start oracle code⟩
  | visit htrace hi hwork ih =>
    obtain ⟨done, hdone⟩ := ih
    exact ⟨_, hdone.visit htrace.coherent hi hwork⟩
  | take htrace hpop hwork hnewly ih =>
    obtain ⟨done, hdone⟩ := ih
    exact ⟨done, hdone.take htrace.coherent hpop hwork hnewly⟩

/-- **Each time an instruction is required, it is at a position of its own.** -/
theorem Charged.required_subperm (h : Charged oracle code done p pushed promoted) :
    (promoted ++ done.filter (·.op.isRoot oracle)).Subperm code := by
  have hpromoted : promoted.Subperm (code.filter fun i => !i.op.isRoot oracle) := by
    refine List.subperm_of_subset h.nodup fun i hi => ?_
    obtain ⟨hmem, hroot, -⟩ := h.unrooted i hi
    simp [hmem, hroot]
  have hdone : (done.filter (·.op.isRoot oracle)).Subperm (code.filter (·.op.isRoot oracle)) := by
    rw [h.visited]
    exact ((List.sublist_append_left done p.todo).filter _).subperm
  have hparts := List.perm_append_comm.trans (List.filter_append_perm (·.op.isRoot oracle) code)
  exact (hpromoted.append hdone).trans hparts.subperm

theorem Charged.length_pushed_le (h : Charged oracle code done p pushed promoted) :
    pushed.length ≤ (code.map (·.op.refs.length)).sum := by
  obtain ⟨required, hperm, hsub⟩ := h.required_subperm
  calc pushed.length
      = (required.flatMap (·.op.refs)).length :=
        (h.paid.trans (hperm.symm.flatMap_right _)).length_eq
    _ ≤ (code.flatMap (·.op.refs)).length := (hsub.flatMap _).length_le
    _ = (code.map (·.op.refs.length)).sum := List.length_flatMap

/-! ## How a marking ends -/

/-- **A marking ends.** No sequence of steps is endless. After the first phase, values are taken off
until the worklist is empty or nothing defines the next value, and propagation ends accordingly.
Whatever point a marking has come to, no instruction has become necessary by propagation more than
once, each value put on the worklist waits there or has been taken off, and there are at most as many
of them as the positions of the code have references. -/
theorem marking_ends (oracle : Oracle) (fn : Func) :
    WellFounded (flip (Step oracle fn.code)) ∧
    (∀ s, scan oracle fn.code = .ok s → Reaches oracle fn.code (.start fn.code) ⟨[], s, []⟩) ∧
    (∀ s, ∃ t taken, Reaches oracle fn.code ⟨[], s, []⟩ ⟨[], t, taken⟩ ∧
      (propagate fn.code s = .ok t ∧ t.work = [] ∨
        ∃ v rest, propagate fn.code s = .error v ∧ t.work = v :: rest ∧ Undefined fn.code v)) ∧
    (∀ p, Reaches oracle fn.code (.start fn.code) p →
      ∃ pushed promoted, Trace oracle fn.code p pushed promoted) ∧
    ∀ p pushed promoted, Trace oracle fn.code p pushed promoted →
      promoted.Nodup ∧ p.taken.length + p.state.work.length = pushed.length ∧
        pushed.length ≤ (fn.code.map (·.op.refs.length)).sum := by
  refine ⟨step_wellFounded oracle fn.code, fun s => reaches_of_scan,
    fun s => propagate_reaches oracle s [], fun p => exists_trace,
    fun p pushed promoted htrace => ?_⟩
  obtain ⟨done, hcharged⟩ := htrace.charged
  exact ⟨hcharged.nodup, htrace.length_taken_add_length_work, hcharged.length_pushed_le⟩

end Marking

/-- A loop whose counter depends on itself, with a last block that stands in the layout twice. -/
def Func.treadmill : Func where
  name := "treadmill"
  pool := [
    ⟨0, [⟨0, .param ⟨1⟩ 0⟩, ⟨1, .jump 1⟩], []⟩,
    ⟨1, [⟨2, .phi ⟨2⟩ [(0, .lit 0), (1, .ref ⟨3⟩)]⟩, ⟨3, .call ⟨3⟩ (.named "add") [.ref ⟨2⟩, .lit 1]⟩,
      ⟨4, .call ⟨4⟩ (.named "less") [.ref ⟨3⟩, .ref ⟨1⟩]⟩, ⟨5, .branch (.ref ⟨4⟩) 1 2⟩], [0, 1]⟩,
    ⟨2, [⟨6, .ret [.ref ⟨1⟩]⟩], [1]⟩]
  layout := [0, 1, 2, 2]

namespace Marking

/-- On the treadmill as many values are put on the worklist as there are references, and all of them
are taken off again. -/
theorem treadmill_uses_every_reference :
    let oracle := (ConstSet.ofList ["add", "less"]).oracle
    let code := Func.treadmill.code
    let taken : List Value := [⟨3⟩, ⟨2⟩, ⟨3⟩, ⟨1⟩, ⟨4⟩, ⟨1⟩, ⟨1⟩]
    ∃ marks pushed promoted, Trace oracle code ⟨[], ⟨marks, []⟩, taken⟩ pushed promoted ∧
      promoted.Nodup ∧ pushed.length = 7 ∧ (code.map (·.op.refs.length)).sum = 7 := by
  intro oracle code taken
  obtain ⟨-, hscan, -, hrecord, hbounds⟩ := marking_ends oracle Func.treadmill
  have hreach := (hscan _ rfl).tail (.take rfl) |>.tail (.take rfl) |>.tail (.take rfl)
    |>.tail (.take rfl) |>.tail (.take rfl) |>.tail (.take rfl) |>.tail (.take rfl)
  obtain ⟨pushed, promoted, htrace⟩ := hrecord _ hreach
  obtain ⟨hnodup, htaken, -⟩ := hbounds _ _ _ htrace
  exact ⟨_, pushed, promoted, htrace, hnodup, htaken.symm, rfl⟩

end Marking

end Deadwood
