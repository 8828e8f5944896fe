import Deadwood.Proofs.Elimination
import Deadwood.Session

/-!
# What an elimination in a session leaves and counts

Whether the check is asked for or not, an elimination in a session either leaves the function as it
was and counts nothing, or it does what an elimination does and counts the function
(`Settings.run_eq`, `Settings.recordReport_run`). Statistics add up field by field, in whatever
order, so the work on several functions is a sum (`Settings.sum_map_work`, `Stats.sum_work`).
-/

namespace Deadwood

/-! ## One function -/

namespace Settings

variable {settings : Settings} {fn : Func}

/-- A function that does not pass the check that is asked for is left alone. -/
theorem run_eq (settings : Settings) (fn : Func) :
    ((settings.run fn).outcome, (settings.run fn).after) =
      match if settings.verify then fn.verify else .ok () with
      | .error f => (.error f, fn)
      | .ok () => fn.eliminate settings.effective := by
  unfold run
  cases if settings.verify then fn.verify else .ok () <;> rfl

/-- Without a check, or if the function passes it, a run is an elimination. -/
theorem run_of_checked (h : settings.verify = false ∨ fn.malformed? = none) :
    ((settings.run fn).outcome, (settings.run fn).after) = fn.eliminate settings.effective := by
  have hcheck : (if settings.verify then fn.verify else .ok ()) = .ok () := by
    rcases h with hoff | hnone
    · simp [hoff]
    · simp [Func.verify, hnone]
  rw [run_eq, hcheck]

theorem run_of_error {f : Fault} (h : (settings.run fn).outcome = .error f) :
    (settings.run fn).after = fn := by
  have hrun := settings.run_eq fn
  split at hrun
  · exact congrArg Prod.snd hrun
  · have hfail : (fn.eliminate settings.effective).1 = .error f := by rw [← hrun, h]
    exact (congrArg Prod.snd hrun).trans (Func.eliminate_of_error hfail)

theorem run_of_ok (h : (settings.run fn).outcome = .ok ()) :
    fn.eliminate settings.effective = (.ok (), (settings.run fn).after) := by
  have hrun := settings.run_eq fn
  rw [h] at hrun
  split at hrun
  · cases hrun
  · exact hrun.symm

theorem run_after (settings : Settings) (fn : Func) :
    (settings.run fn).after = fn ∨ ∃ keep, (settings.run fn).after = fn.sweep keep := by
  cases h : (settings.run fn).outcome with
  | error f => exact Or.inl (run_of_error h)
  | ok =>
    have hok := run_of_ok h
    obtain ⟨keep, -, hafter⟩ := Func.eliminate_of_ok (congrArg Prod.fst hok)
    exact Or.inr ⟨keep, (congrArg Prod.snd hok).symm.trans hafter⟩

theorem name_run (settings : Settings) (fn : Func) : (settings.run fn).after.name = fn.name := by
  rcases settings.run_after fn with h | ⟨keep, h⟩ <;> simp [h]

theorem size_run_le (settings : Settings) (fn : Func) :
    (settings.run fn).after.size ≤ fn.size := by
  rcases settings.run_after fn with h | ⟨keep, h⟩
  · rw [h]
  · rw [h, Func.size, Func.code_sweep]
    exact List.length_filter_le keep fn.code

end Settings

/-! ## Statistics add up -/

namespace Stats

instance : Add Stats := ⟨fun a b => ⟨a.funcs + b.funcs, a.instrs + b.instrs, a.removed + b.removed⟩⟩

instance : Zero Stats := ⟨zero⟩

theorem add_def (a b : Stats) :
    a + b = ⟨a.funcs + b.funcs, a.instrs + b.instrs, a.removed + b.removed⟩ := rfl

theorem zero_def : (0 : Stats) = ⟨0, 0, 0⟩ := rfl

instance : AddCommMonoid Stats where
  add_assoc a b c := by simp [add_def, UInt64.add_assoc]
  zero_add a := by simp [add_def, zero_def]
  add_zero a := by simp [add_def, zero_def]
  add_comm a b := by simp [add_def, UInt64.add_comm]
  nsmul := nsmulRec

/-- The work on one function that went from `before` instructions to `after`. -/
def work (before after : Nat) : Stats := ⟨1, .ofNat before, .ofNat (before - after)⟩

theorem record_eq (s : Stats) {before after : Nat} (h : after ≤ before) :
    s.record before after = s + work before after := by
  have hremoved : UInt64.ofInt (before - after) = UInt64.ofNat (before - after) := by
    apply UInt64.toNat_inj.mp
    simp only [UInt64.ofInt, UInt64.toNat_ofNat']
    omega
  rw [record, hremoved]
  rfl

theorem sum_work {α : Type} (before after : α → Nat) (l : List α) :
    (l.map fun a => work (before a) (after a)).sum =
      ⟨.ofNat l.length, .ofNat (l.map before).sum,
        .ofNat (l.map fun a => before a - after a).sum⟩ := by
  induction l with
  | nil => rfl
  | cons a rest ih =>
    rw [List.map_cons, List.sum_cons, ih, add_comm]
    simp only [work, add_def, List.map_cons, List.sum_cons, List.length_cons, UInt64.ofNat_add]
    simp [add_comm]

end Stats

/-- The fault that an elimination failed with, if it failed. -/
def Report.fault? (r : Report) : Option Fault :=
  match r.outcome with
  | .ok () => none
  | .error f => some f

theorem Report.fault?_eq_none_iff {r : Report} : r.fault? = none ↔ r.outcome = .ok () := by
  unfold fault?
  cases r.outcome <;> simp

theorem Report.fault?_eq_some_iff {r : Report} {f : Fault} :
    r.fault? = some f ↔ r.outcome = .error f := by
  unfold fault?
  cases r.outcome <;> simp

/-- What an elimination of `fn` that ended in this way adds to the statistics. -/
def Report.work (fn : Func) (r : Report) : Stats :=
  match r.outcome with
  | .ok () => .work fn.size r.after.size
  | .error _ => 0

/-- Functions on which the elimination fails do not count. -/
theorem Report.sum_map_work {α : Type} (fn : α → Func) (report : α → Report) (l : List α) :
    (l.map fun a => (report a).work (fn a)).sum =
      ((l.filter fun a => (report a).outcome.isOk).map fun a =>
        Stats.work (fn a).size (report a).after.size).sum := by
  induction l with
  | nil => rfl
  | cons a rest ih =>
    rw [List.map_cons, List.sum_cons, ih]
    cases h : (report a).outcome with
    | error f => simp [work, h, Except.isOk, Except.toBool]
    | ok => simp [work, h, Except.isOk, Except.toBool]

namespace Settings

/-- What an elimination of the function adds to the statistics. -/
def work (settings : Settings) (fn : Func) : Stats := (settings.run fn).work fn

theorem recordReport_run (settings : Settings) (fn : Func) (s : Stats) :
    s.recordReport fn (settings.run fn) = s + settings.work fn := by
  unfold Stats.recordReport work Report.work
  cases (settings.run fn).outcome with
  | error f => exact (add_zero s).symm
  | ok => exact s.record_eq (settings.size_run_le fn)

theorem sum_map_work (settings : Settings) (fns : List Func) :
    (fns.map settings.work).sum =
      ((fns.filter fun fn => (settings.run fn).outcome.isOk).map fun fn =>
        Stats.work fn.size (settings.run fn).after.size).sum :=
  Report.sum_map_work id settings.run fns

end Settings

theorem Session.eliminate_of_settings {s : Session} {options : List Setting} {settings : Settings}
    (h : Settings.resolve s.defaults options = .ok settings) (fn : Func) :
    s.eliminate options fn =
      (settings.run fn, { s with stats := s.stats + settings.work fn }) := by
  rw [Session.eliminate, h, ← settings.recordReport_run]

end Deadwood
