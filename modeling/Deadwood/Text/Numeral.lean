/-!
# Numerals

How a number is spelled by hand: in decimal, or after a **base mark** in another base. The marks
are `0b` for two, `0o` or a mere `0` for eight, and `0x` for sixteen. Letters count in either case.
An underscore may stand between two digits, and between a base mark and the first digit.
-/

namespace Deadwood.Numeral

/-- The value of a digit, where letters go on after `9`. -/
def digit? (c : Char) : Option Nat :=
  if '0' ≤ c ∧ c ≤ '9' then some (c.toNat - '0'.toNat)
  else if 'a' ≤ c ∧ c ≤ 'z' then some (c.toNat - 'a'.toNat + 10)
  else if 'A' ≤ c ∧ c ≤ 'Z' then some (c.toNat - 'A'.toNat + 10)
  else none

/-- Read digits of a base, underscores skipped, after digits that have the value `acc`. -/
def digits? (base acc : Nat) : List Char → Option Nat
  | [] => some acc
  | c :: rest =>
    if c = '_' then digits? base acc rest
    else match digit? c with
      | some d => if d < base then digits? base (acc * base + d) rest else none
      | none => none

/-- Whether every underscore stands after a digit and before one. The flag says whether a digit, or
a base mark, comes before the text. -/
def separated : (afterDigit : Bool) → List Char → Bool
  | _, [] => true
  | afterDigit, c :: rest =>
    if c = '_' then afterDigit && !rest.isEmpty && separated false rest
    else separated true rest

/-- Read what follows the base mark, if there is one. -/
def inBase? (base : Nat) (marked : Bool) (cs : List Char) : Option Nat :=
  if separated marked cs then digits? base 0 cs else none

/-- The base that a letter after `0` stands for. -/
def base? (c : Char) : Option Nat :=
  if c = 'b' ∨ c = 'B' then some 2
  else if c = 'o' ∨ c = 'O' then some 8
  else if c = 'x' ∨ c = 'X' then some 16
  else none

/-- Read what follows a `0` at the front: a letter for the base and digits, or octal digits. -/
def afterZero? : List Char → Option Nat
  | m :: c :: rest =>
    match base? m with
    | some base => inBase? base true (c :: rest)
    | none => inBase? 8 true (m :: c :: rest)
  | cs => inBase? 8 true cs

/-- The number that a text spells, if it spells one. -/
def read? (s : String) : Option Nat :=
  match s.toList with
  | [] => none
  | c :: rest => if c = '0' then afterZero? rest else inBase? 10 false (c :: rest)

end Deadwood.Numeral
