import Deadwood.WellFormed

/-!
# Faults

Why an elimination can fail, and in what words. A fault names its cause; `message` is the one
place where the wording is decided.
-/

namespace Deadwood

/-- A function breaks a rule that the analysis relies on. -/
structure Violation where
  func : String
  /-- The value concerned, or the one that names nothing. -/
  value : Value
  reason : String
deriving DecidableEq, Repr

/-- The wording for a broken rule, with the value if there is one. -/
def Violation.message (v : Violation) : String :=
  let subject := if v.value.IsSome then v.value.text ++ ": " else ""
  "ssa: invariant violated in " ++ v.func ++ ": " ++ subject ++ v.reason

/-- A value is needed, and nothing in the function defines it. -/
def Violation.undefined (func : String) (v : Value) : Violation :=
  ⟨func, v, "value has no definition"⟩

/-- Why an elimination fails. -/
inductive Fault where
  /-- The body holds an instruction known by its text only. -/
  | unknownInstr (text : String)
  | oracle (text : String)
  /-- Failure with a bare number. -/
  | code (n : Int)
  /-- The function breaks a rule of the analysis. -/
  | violation (v : Violation)
  | malformed (m : Malformed)
  /-- The check before the elimination found the function malformed. -/
  | unverified (m : Malformed)
  /-- The number of workers asked for is out of range. -/
  | workerCount (n : Int)
  /-- There is no function at a place of the list. -/
  | missingFunc (index : Nat)
deriving DecidableEq, Repr

namespace Fault

/-- The wording of a fault. -/
def message : Fault → String
  | unknownInstr text => "dce: invalid instruction: " ++ text
  | oracle text => text
  | code n => toString n
  | violation v => v.message
  | malformed m => m.message
  | unverified m => "verify " ++ m.func ++ ": " ++ m.message
  | workerCount n => "ssadce: invalid worker count: " ++ toString n
  | missingFunc index => "ssadce: nil function at index " ++ toString index

/-- Whether the fault describes what is wrong with a function, rather than being mere words or a
number. -/
def isDiagnosis : Fault → Bool
  | violation _ | malformed _ | unverified _ => true
  | _ => false

end Fault

/-- The elimination failed on one of several functions. -/
structure PassFailure where
  func : String
  /-- Why, if a reason was given. -/
  reason : Option Fault
deriving DecidableEq, Repr

namespace PassFailure

/-- The wording for a failure on one of several functions. -/
def message (p : PassFailure) : String :=
  "ssadce: failed to optimize " ++ p.func ++ ": " ++ (p.reason.elim "<nil>" Fault.message)

/-- What is wrong with the function, if the reason tells. -/
def diagnosis? (p : PassFailure) : Option Fault := p.reason.filter Fault.isDiagnosis

end PassFailure

end Deadwood
