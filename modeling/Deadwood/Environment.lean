import Deadwood.Text.Numeral

/-!
# Environment variables

Counts and switches that are set from outside the program. A variable that is unset or empty leaves
the default. A count is a numeral of at most 64 bits; one that does not fit 31 bits is too large,
and each variable has a least count.
-/

namespace Deadwood

/-- The variables, by name. -/
abbrev Environment := String → Option String

/-- Why the setting of a variable is refused. -/
inductive EnvFault where
  /-- It is not a numeral, or not the name of a switch position. -/
  | invalid (key : String)
  /-- The count does not fit 31 bits. -/
  | tooLarge (key : String)
  /-- The count is below the least one. -/
  | tooSmall (key : String)
deriving DecidableEq, Repr

/-- The wording for a refused setting. -/
def EnvFault.message : EnvFault → String
  | invalid key => "ssadce: invalid value for " ++ key
  | tooLarge key => "ssadce: value too large for " ++ key
  | tooSmall key => "ssadce: value too small for " ++ key

namespace Environment

/-- The largest count: what fits 31 bits. -/
def maxCount : Nat := 2147483647

/-- The number that a text spells, if it spells one of 64 bits. -/
def word64? (s : String) : Option Nat :=
  (Numeral.read? s).filter fun n => decide (n < UInt64.size)

/-- The position of a switch that a text names. -/
def position? (s : String) : Option Bool :=
  if s ∈ ["1", "t", "T", "TRUE", "true", "True"] then some true
  else if s ∈ ["0", "f", "F", "FALSE", "false", "False"] then some false
  else none

/-- What a variable is set to. An empty text sets nothing. -/
def setting? (env : Environment) (key : String) : Option String :=
  (env key).filter fun s => decide (s ≠ "")

/-- The count that a variable sets, of which `least` is the least allowed. -/
def count (env : Environment) (key : String) (default least : Int) : Except EnvFault Int :=
  match env.setting? key with
  | none => .ok default
  | some s =>
    match word64? s with
    | none => .error (.invalid key)
    | some n =>
      if maxCount < n then .error (.tooLarge key)
      else if (n : Int) < least then .error (.tooSmall key)
      else .ok n

/-- The position that a variable puts a switch in. -/
def switch (env : Environment) (key : String) (default : Bool) : Except EnvFault Bool :=
  match env.setting? key with
  | none => .ok default
  | some s =>
    match position? s with
    | none => .error (.invalid key)
    | some on => .ok on

end Environment

end Deadwood
