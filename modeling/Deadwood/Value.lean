/-!
# Values and operands

A function in single-assignment form names the results of its instructions by **values**. An
**operand** is what an instruction reads: a value, or an integer literal written in place.

Value number `0` is the name of nothing. An instruction that produces no result carries it as
its result, and an operand that carries it is a literal.
-/

namespace Deadwood

/-- The name of a result: a 32-bit number, where `0` names nothing. -/
structure Value where
  /-- The number behind the name. -/
  num : UInt32
deriving DecidableEq, Repr, Inhabited

namespace Value

/-- The value that names nothing. -/
def nothing : Value := ⟨0⟩

/-- The `n`-th name. Names are 32 bits wide, so the count wraps there. -/
def ofNat (n : Nat) : Value := ⟨UInt32.ofNat n⟩

/-- Whether the name stands for a result. -/
def IsSome (v : Value) : Prop := v ≠ nothing

instance (v : Value) : Decidable v.IsSome := inferInstanceAs (Decidable (v ≠ nothing))

/-- The text of a value: `_` for the one that names nothing, `%v7` for number seven. -/
def text (v : Value) : String :=
  if v.IsSome then "%v" ++ toString v.num.toNat else "_"

end Value

/-- What an instruction reads. It refers to `value` when that names a result; otherwise it is the
literal `literal`. -/
structure Operand where
  /-- The value referred to, or the one that names nothing. -/
  value : Value
  /-- The literal, which is of no account next to a value. -/
  literal : Int64
deriving DecidableEq, Repr, Inhabited

namespace Operand

/-- A reference to a value. -/
def ref (v : Value) : Operand := ⟨v, 0⟩

/-- A literal. -/
def lit (n : Int64) : Operand := ⟨Value.nothing, n⟩

/-- Whether the operand refers to a value. -/
def isValue (x : Operand) : Bool := decide x.value.IsSome

/-- The value referred to, if the operand is not a literal. -/
def value? (x : Operand) : Option Value := if x.value.IsSome then some x.value else none

/-- The text of an operand: that of its value, or the literal after a dollar sign. -/
def text (x : Operand) : String :=
  if x.value.IsSome then x.value.text else "$" ++ toString x.literal.toInt

theorem value?_eq_some_iff {x : Operand} {v : Value} :
    x.value? = some v ↔ x.value = v ∧ v.IsSome := by
  unfold value?
  split
  case isTrue h =>
    refine ⟨fun e => ?_, fun e => congrArg some e.1⟩
    cases e
    exact ⟨rfl, h⟩
  case isFalse h => exact ⟨nofun, fun e => absurd (e.1 ▸ e.2) h⟩

end Operand

end Deadwood
