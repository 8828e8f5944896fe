/-!
# Types of a source program

Of a type, two things matter to the effects of an instruction: whether it is unsigned, since a shift
by a negative count fails, and whether it holds an interface, since comparing the contents of two
interfaces may fail.
-/

namespace Deadwood.Source

/-- A type of a source program, as far as it tells what an instruction may do. -/
inductive Ty where
  | basic (name : String)
  | pointer
  | slice
  | map
  | chan
  | func
  | interface
  /-- A type parameter, which stands for its constraint interface. -/
  | typeParam
  /-- A defined type, with the type that defines it. -/
  | named (t : Ty)
  /-- Another name for a type. -/
  | synonym (t : Ty)
  | array (elem : Ty)
  | struct (fields : List Ty)
deriving Repr, Inhabited

namespace Ty

/-- The type of a function's results and operands where none is given. -/
def int : Ty := basic "int"

/-- The type without the names given to it. -/
def underlying : Ty → Ty
  | named t | synonym t => t.underlying
  | typeParam => interface
  | t => t

/-- The names of the unsigned basic types, one of which has two. -/
def unsignedNames : List String :=
  ["uint", "uint8", "byte", "uint16", "uint32", "uint64", "uintptr"]

/-- Whether a value of the type is never negative. -/
def isUnsigned (t : Ty) : Bool :=
  match t.underlying with
  | basic name => decide (name ∈ unsignedNames)
  | _ => false

mutual

/-- Whether a value of the type holds an interface, itself or in its elements or fields. -/
def holdsInterface : Ty → Bool
  | interface | typeParam => true
  | named t | synonym t | array t => t.holdsInterface
  | struct fields => anyHoldsInterface fields
  | _ => false

/-- Whether a value of one of the types holds an interface. -/
def anyHoldsInterface : List Ty → Bool
  | [] => false
  | t :: rest => t.holdsInterface || anyHoldsInterface rest

end

end Ty

end Deadwood.Source
