import Deadwood.Environment
import Deadwood.Fault
import Deadwood.Oracle

/-!
# Settings of an elimination

An elimination starts from the `Defaults` that hold at the time and applies a list of settings in
order, so that of two that concern the same thing the later one counts. The only setting that can
be refused is a number of workers out of range.
-/

namespace Deadwood

/-- What holds where no setting says otherwise. -/
structure Defaults where
  /-- Check functions first. -/
  verify : Bool
  /-- Record events. -/
  trace : Bool
  /-- The number of workers that share the functions of a batch. -/
  maxWorkers : Int
deriving DecidableEq, Repr

namespace Defaults

/-- Checks and events are off, and there are four workers. -/
def standard : Defaults := ⟨false, false, 4⟩

/-- The standard defaults, where the environment does not change them. -/
def ofEnvironment (env : Environment) : Except EnvFault Defaults := do
  let verify ← env.switch "SSADCE_VERIFY" standard.verify
  let trace ← env.switch "SSADCE_TRACE" standard.trace
  let maxWorkers ← env.count "SSADCE_MAX_WORKERS" standard.maxWorkers 1
  return ⟨verify, trace, maxWorkers⟩

end Defaults

/-- How an elimination is done. -/
structure Settings where
  /-- Who knows the callees, if anyone does. -/
  oracle : Option Oracle
  verify : Bool
  trace : Bool
  maxWorkers : Int

/-- One thing to set. -/
inductive Setting where
  /-- Who knows the callees. -/
  | oracle (o : Option Oracle)
  /-- The callees of these names are const, and no others. -/
  | constCallees (names : List String)
  | verify (on : Bool)
  | trace (on : Bool)
  | maxWorkers (n : Int)

namespace Settings

/-- The settings that the defaults stand for. -/
def ofDefaults (d : Defaults) : Settings := ⟨none, d.verify, d.trace, d.maxWorkers⟩

/-- The oracle in force. -/
def effective (s : Settings) : Oracle := .inForce s.oracle

/-- Set one thing. -/
def set (s : Settings) : Setting → Except Fault Settings
  | .oracle o => .ok { s with oracle := o }
  | .constCallees names => .ok { s with oracle := some (ConstSet.ofList names).oracle }
  | .verify on => .ok { s with verify := on }
  | .trace on => .ok { s with trace := on }
  | .maxWorkers n =>
    if 1 ≤ n ∧ n ≤ Environment.maxCount then .ok { s with maxWorkers := n }
    else .error (.workerCount n)

/-- Start from the defaults and set one thing after the other. -/
def resolve (d : Defaults) (options : List Setting) : Except Fault Settings :=
  options.foldlM set (ofDefaults d)

end Settings

end Deadwood
