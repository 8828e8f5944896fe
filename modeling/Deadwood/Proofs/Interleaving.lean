import Deadwood.Batch
import Deadwood.Proofs.Session

/-!
# The tasks of a batch, step by step

Workers that share the functions of a batch do not wait for each other, so while one task is marking
its function another may be half through its sweep. Here a task goes through **stages**, one step at
a time: it checks its function if that is asked for, marks it, sweeps one block after the other, and
adds to each counter of the statistics. A failure ends it and goes into its slot. A batch in
progress (`Progress`) takes a step of any task at any time. Nothing limits how many tasks are under
way, so whatever number of workers there is, what they do is among these runs.

**Theorem (`Progress.batch_of_finished`).** Whatever the order of the steps, when all tasks are done
each function is as an elimination of its own leaves it, each slot holds its fault, and the
statistics have grown by the work on all functions.

The steps of different tasks meet in the statistics only, and there they add, so their order does not
matter. Instead of exchanging steps, the proof says for a task at any stage where it will end and
what it has still to add. This **outlook** is the same before and after each step of the task.
-/

namespace Deadwood

/-- What is there when every function has been through an elimination of its own. -/
def Batch.alone (settings : Settings) (fns : List Func) (stats : Stats) : Batch where
  funcs := fns.map fun fn => (settings.run fn).after
  failures := fns.map fun fn => (settings.run fn).fault?
  stats := stats + (fns.map settings.work).sum

/-! ## Tasks -/

/-- How far a task is. -/
inductive Stage where
  | waiting
  /-- The function passed the check, or none was asked for. -/
  | checked
  /-- The function had `before` instructions, and the blocks of `todo` are still to be swept. -/
  | sweeping (before : Nat) (marks : Marks) (todo : List BlockRef)
  /-- The function is swept, and this is still to be added to the statistics. -/
  | counting (todo : List Stats)
  | done

structure Task where
  func : Func
  stage : Stage
  /-- The slot for the fault that the task fails with. -/
  failure : Option Fault

/-- Where a task will end, and what it has still to add to the statistics. -/
structure Outlook where
  func : Func
  failure : Option Fault
  owed : Stats

namespace Task

def fail (t : Task) (f : Fault) : Task := { t with stage := .done, failure := some f }

/-- The next step of a task: the task after it, and what the step adds to the statistics. -/
def step (settings : Settings) (t : Task) : Task × Stats :=
  match t.stage with
  | .waiting =>
    match if settings.verify then t.func.verify else .ok () with
    | .error f => (t.fail f, 0)
    | .ok () => ({ t with stage := .checked }, 0)
  | .checked =>
    match Marking.run settings.effective t.func with
    | .error f => (t.fail f, 0)
    | .ok marks => ({ t with stage := .sweeping t.func.size marks t.func.layout }, 0)
  | .sweeping before marks (r :: rest) =>
    ({ t with
        func := t.func.modifyBlock r (Block.sweep marks.keeps)
        stage := .sweeping before marks rest }, 0)
  | .sweeping before _ [] =>
    -- the three counters are added to one by one
    ({ t with
        stage := .counting [⟨1, 0, 0⟩, ⟨0, .ofNat before, 0⟩,
          ⟨0, 0, .ofInt (before - t.func.size)⟩] }, 0)
  | .counting (a :: rest) => ({ t with stage := .counting rest }, a)
  | .counting [] => ({ t with stage := .done }, 0)
  | .done => (t, 0)

def outlook (settings : Settings) (t : Task) : Outlook :=
  match t.stage with
  | .waiting =>
    let report := settings.run t.func
    ⟨report.after, report.fault?.or t.failure, (0 : Stats).recordReport t.func report⟩
  | .checked =>
    match t.func.eliminate settings.effective with
    | (.error f, after) => ⟨after, some f, 0⟩
    | (.ok (), after) => ⟨after, t.failure, (0 : Stats).record t.func.size after.size⟩
  | .sweeping before marks todo =>
    let after := todo.foldl (fun f r => f.modifyBlock r (Block.sweep marks.keeps)) t.func
    ⟨after, t.failure, (0 : Stats).record before after.size⟩
  | .counting todo => ⟨t.func, t.failure, todo.sum⟩
  | .done => ⟨t.func, t.failure, 0⟩

/-- **A step of a task does not change its outlook.** What the step adds to the statistics is no
longer owed. -/
theorem outlook_step (settings : Settings) (t : Task) :
    t.outlook settings =
      { (t.step settings).1.outlook settings with
        owed := (t.step settings).2 + ((t.step settings).1.outlook settings).owed } := by
  obtain ⟨fn, stage, failure⟩ := t
  cases stage with
  | waiting =>
    have hrun := settings.run_eq fn
    simp only [outlook, step]
    generalize settings.run fn = report at hrun ⊢
    obtain ⟨outcome, after, events, asked⟩ := report
    cases hcheck : if settings.verify then fn.verify else .ok () with
    | error f =>
      rw [hcheck] at hrun
      cases hrun
      simp [fail, Report.fault?, Stats.recordReport]
    | ok =>
      rw [hcheck] at hrun
      simp only at hrun ⊢
      rw [← hrun]
      cases outcome <;> simp [Report.fault?, Stats.recordReport]
  | checked =>
    simp only [outlook, step, Func.eliminate_eq]
    cases Marking.run settings.effective fn <;> simp [fail, Func.sweep]
  | sweeping before marks todo =>
    cases todo with
    | nil => simp [outlook, step, Stats.record, Stats.add_def, Stats.zero_def]
    | cons r rest => simp [outlook, step]
  | counting todo => cases todo <;> simp [outlook, step]
  | done => simp [outlook, step]

end Task

/-! ## Batches in progress -/

structure Progress where
  tasks : List Task
  stats : Stats

namespace Progress

def start (fns : List Func) (stats : Stats) : Progress :=
  ⟨fns.map fun fn => ⟨fn, .waiting, none⟩, stats⟩

/-- Some worker takes the next step of the task of index `i`. -/
def step (settings : Settings) (p : Progress) (i : Nat) : Progress :=
  match p.tasks[i]? with
  | none => p
  | some t => ⟨p.tasks.set i (t.step settings).1, p.stats + (t.step settings).2⟩

def run (settings : Settings) (p : Progress) (steps : List Nat) : Progress :=
  steps.foldl (step settings) p

def Finished (p : Progress) : Prop := ∀ t ∈ p.tasks, t.stage = .done

/-- What the workers have done so far. -/
def batch (p : Progress) : Batch := ⟨p.tasks.map (·.func), p.tasks.map (·.failure), p.stats⟩

/-- The batch as it will be when all tasks are done. -/
def outlook (settings : Settings) (p : Progress) : Batch where
  funcs := p.tasks.map fun t => (t.outlook settings).func
  failures := p.tasks.map fun t => (t.outlook settings).failure
  stats := p.stats + (p.tasks.map fun t => (t.outlook settings).owed).sum

theorem outlook_step (settings : Settings) (p : Progress) (i : Nat) :
    (p.step settings i).outlook settings = p.outlook settings := by
  unfold step
  cases hi : p.tasks[i]? with
  | none => rfl
  | some t =>
    obtain ⟨hlt, ht⟩ := List.getElem?_eq_some_iff.mp hi
    obtain ⟨before, after, htasks, -, hset⟩ : ∃ before after,
        p.tasks = before ++ p.tasks[i] :: after ∧ before.length = i ∧
          p.tasks.set i (t.step settings).1 = before ++ (t.step settings).1 :: after :=
      List.exists_of_set hlt
    rw [ht] at htasks
    simp only [outlook, hset]
    rw [htasks]
    simp only [List.map_append, List.map_cons, List.sum_append, List.sum_cons,
      t.outlook_step settings]
    congr 1
    abel

theorem outlook_run (settings : Settings) (p : Progress) (steps : List Nat) :
    (p.run settings steps).outlook settings = p.outlook settings := by
  induction steps generalizing p with
  | nil => rfl
  | cons i rest ih => exact (ih (p.step settings i)).trans (p.outlook_step settings i)

theorem outlook_of_finished {settings : Settings} {p : Progress} (h : p.Finished) :
    p.outlook settings = p.batch := by
  have hdone : ∀ t ∈ p.tasks, t.outlook settings = ⟨t.func, t.failure, 0⟩ := by
    intro t ht
    rw [Task.outlook, h t ht]
  unfold outlook batch
  congr 1
  · exact List.map_congr_left fun t ht => by rw [hdone t ht]
  · exact List.map_congr_left fun t ht => by rw [hdone t ht]
  · have howed : (p.tasks.map fun t => (t.outlook settings).owed).sum = 0 := by
      refine List.sum_eq_zero fun a ha => ?_
      obtain ⟨t, ht, rfl⟩ := List.mem_map.mp ha
      rw [hdone t ht]
    rw [howed, add_zero]

theorem outlook_start (settings : Settings) (fns : List Func) (stats : Stats) :
    (start fns stats).outlook settings = .alone settings fns stats := by
  simp [Batch.alone, start, outlook, Task.outlook, Function.comp_def, Settings.recordReport_run]

/-- **Interleaved tasks leave what independent eliminations leave.** -/
theorem batch_of_finished {settings : Settings} {fns : List Func} {stats : Stats} {steps : List Nat}
    (h : ((start fns stats).run settings steps).Finished) :
    ((start fns stats).run settings steps).batch = .alone settings fns stats := by
  rw [← outlook_of_finished h, outlook_run, outlook_start]

end Progress

end Deadwood
