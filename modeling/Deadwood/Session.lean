import Deadwood.Elimination
import Deadwood.Settings

/-!
# Sessions

A session holds what outlives one elimination: the defaults in force, and the statistics of the
work done. An elimination in a session may check the function first, may record events, and counts
in the statistics only if it succeeds.
-/

namespace Deadwood

/-- How much work was done. The counters are 64 bits wide and wrap there. -/
structure Stats where
  funcs : UInt64
  /-- Instructions that they had. -/
  instrs : UInt64
  /-- Instructions removed from them. -/
  removed : UInt64
deriving DecidableEq, Repr

namespace Stats

/-- No work. -/
def zero : Stats := ⟨0, 0, 0⟩

/-- Count one function that went from `before` instructions to `after`. -/
def record (s : Stats) (before after : Nat) : Stats where
  funcs := s.funcs + 1
  instrs := s.instrs + UInt64.ofNat before
  removed := s.removed + UInt64.ofInt (before - after)

end Stats

/-- Something that happened during an elimination. -/
inductive Event where
  /-- It began, on a function with so many blocks and instructions. -/
  | start (func : String) (blocks instrs : Nat)
  | unreachable (count : Nat)
  /-- So many instructions stay, and so many are gone. -/
  | swept (instrs : Nat) (removed : Int)
  /-- It ended, one way or the other. -/
  | finish
deriving DecidableEq, Repr

/-- What came of an elimination. -/
structure Report where
  /-- Whether it succeeded, or else why not. -/
  outcome : Except Fault Unit
  /-- The function it leaves. -/
  after : Func
  /-- What happened, in order. -/
  events : List Event
  /-- The callees that the oracle was asked about, in order. -/
  asked : List Callee

namespace Report

/-- The report of an elimination of `fn` that did not begin. -/
def refused (fn : Func) (f : Fault) : Report := ⟨.error f, fn, [], []⟩

end Report

namespace Func

/-- Check a function. -/
def verify (fn : Func) : Except Fault Unit :=
  match fn.malformed? with
  | some m => .error (.unverified m)
  | none => .ok ()

/-- The events of an elimination with a given outcome. -/
def events (fn : Func) (outcome : Except Fault Unit) (after : Func) : List Event :=
  let lost := fn.unreachable.length
  [.start fn.name fn.layout.length fn.size]
    ++ (if lost = 0 then [] else [.unreachable lost])
    ++ (match outcome with
      | .ok () => [.swept after.size (fn.size - after.size)]
      | .error _ => [])
    ++ [.finish]

end Func

namespace Settings

/-- Check the function if that is set, and eliminate its dead instructions. -/
def run (s : Settings) (fn : Func) : Report :=
  match if s.verify then fn.verify else .ok () with
  | .error f => .refused fn f
  | .ok () =>
    let (outcome, after) := fn.pass s.oracle
    { outcome
      after
      events := if s.trace then fn.events outcome after else []
      asked := Marking.consulted s.effective fn.code }

end Settings

namespace Stats

/-- Count a function if its elimination succeeded. -/
def recordReport (s : Stats) (before : Func) (r : Report) : Stats :=
  match r.outcome with
  | .ok () => s.record before.size r.after.size
  | .error _ => s

end Stats

/-- What outlives one elimination. -/
structure Session where
  defaults : Defaults
  stats : Stats
deriving Repr

namespace Session

/-- A session that starts from given defaults. -/
def start (d : Defaults) : Session := ⟨d, .zero⟩

/-- Turn the check on or off from now on. -/
def setVerify (s : Session) (on : Bool) : Session :=
  { s with defaults := { s.defaults with verify := on } }

/-- Turn the recording of events on or off from now on. -/
def setTrace (s : Session) (on : Bool) : Session :=
  { s with defaults := { s.defaults with trace := on } }

/-- Eliminate the dead instructions of a function. -/
def eliminate (s : Session) (options : List Setting) (fn : Func) : Report × Session :=
  match Settings.resolve s.defaults options with
  | .error f => (.refused fn f, s)
  | .ok settings =>
    let report := settings.run fn
    (report, { s with stats := s.stats.recordReport fn report })

end Session

end Deadwood
