import Deadwood.Session

/-!
# Batches

A batch eliminates the dead instructions of several functions. Each function is a task of its own:
it works on its function, leaves its reason for failing, if it fails, in a slot that no other task
uses, and otherwise adds to the statistics what it did. The workers take the tasks in some order,
the **schedule**, and when all are done the failure of the least index is the one reported.
-/

namespace Deadwood

/-- Where a batch stands. -/
structure Batch where
  funcs : List Func
  /-- The failures so far, one slot for each function. -/
  failures : List (Option Fault)
  stats : Stats

/-- Why a batch fails. -/
inductive BatchFault where
  /-- It did not begin. -/
  | refused (f : Fault)
  /-- All tasks are done, and one of them failed. -/
  | failed (p : PassFailure)
deriving DecidableEq, Repr

/-- What came of a batch. -/
structure BatchReport where
  funcs : List (Option Func)
  fault : Option BatchFault

namespace Batch

/-- Nothing is done yet. -/
def start (funcs : List Func) (stats : Stats) : Batch := ⟨funcs, funcs.map fun _ => none, stats⟩

/-- Do the task of index `i`. -/
def runTask (settings : Settings) (b : Batch) (i : Nat) : Batch :=
  match b.funcs[i]? with
  | none => b
  | some fn =>
    let report := settings.run fn
    let b := { b with funcs := b.funcs.set i report.after }
    match report.outcome with
    | .ok () => { b with stats := b.stats.record fn.size report.after.size }
    | .error f => { b with failures := b.failures.set i (some f) }

/-- Do the tasks in the order of a schedule. -/
def run (settings : Settings) (schedule : List Nat) (b : Batch) : Batch :=
  schedule.foldl (runTask settings) b

/-- The failure of the least index. -/
def failure? (b : Batch) : Option PassFailure :=
  (b.funcs.zip b.failures).findSome? fun p => p.2.map fun f => ⟨p.1.name, some f⟩

/-- What to report when all tasks are done. -/
def report (b : Batch) : BatchReport := ⟨b.funcs.map some, b.failure?.map .failed⟩

end Batch

namespace Session

/-- Eliminate the dead instructions of several functions, in the order of a schedule. A list with a
gap is refused before anything is done. -/
def eliminateAllIn (s : Session) (schedule : List Nat) (options : List Setting)
    (funcs : List (Option Func)) : BatchReport × Session :=
  match Settings.resolve s.defaults options with
  | .error f => (⟨funcs, some (.refused f)⟩, s)
  | .ok settings =>
    match funcs.findIdx? Option.isNone with
    | some i => (⟨funcs, some (.refused (.missingFunc i))⟩, s)
    | none =>
      let done := (Batch.start (funcs.filterMap id) s.stats).run settings schedule
      (done.report, { s with stats := done.stats })

/-- Eliminate the dead instructions of several functions, one after the other. -/
def eliminateAll (s : Session) (options : List Setting) (funcs : List (Option Func)) :
    BatchReport × Session :=
  s.eliminateAllIn (List.range funcs.length) options funcs

end Session

end Deadwood
