import Deadwood.Instr

/-!
# Oracles

An **oracle** knows callees. It calls a callee *const* when a call to it has no effect that anyone
can observe, so that the call may go when nobody uses its result. An oracle may also fail on a
callee, with words of its own.
-/

namespace Deadwood

/-- What is known of callees. -/
structure Oracle where
  /-- Whether calls to the callee have no observable effect. -/
  isConst : Callee → Except String Bool

namespace Oracle

/-- The oracle that answers by a rule and never fails. -/
def ofRule (rule : Callee → Bool) : Oracle := ⟨fun c => .ok (rule c)⟩

/-- The oracle that knows no const callee. -/
def never : Oracle := ofRule fun _ => false

/-- The oracle in force where there may be one. Without one, no callee is const. -/
def inForce (oracle : Option Oracle) : Oracle := oracle.getD never

end Oracle

/-- A set of names of const callees. -/
structure ConstSet where
  names : List String
deriving Repr

namespace ConstSet

/-- The set of these names. -/
def ofList (names : List String) : ConstSet := ⟨names⟩

/-- Add names. -/
def insert (s : ConstSet) (names : List String) : ConstSet := ⟨s.names ++ names⟩

/-- Whether a callee is known by name to be const. -/
def contains (s : ConstSet) : Callee → Bool
  | .named name => decide (name ∈ s.names)
  | .unresolved => false

/-- The oracle that goes by the names of the set. -/
def oracle (s : ConstSet) : Oracle := .ofRule s.contains

end ConstSet

end Deadwood
