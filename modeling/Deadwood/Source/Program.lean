import Deadwood.Source.Ty

/-!
# Source functions

Functions of a Go program in the single-assignment form of a compiler's front end: blocks of
instructions with typed results, where an operand is a parameter, a captured variable, the result of
an instruction, or something that needs no computing.
-/

namespace Deadwood.Source

/-- A place in a function: a block, and an instruction of it. -/
structure Site where
  block : Nat
  index : Nat
deriving DecidableEq, Repr

/-- The text of a site. -/
def Site.text (s : Site) : String := toString s.block ++ ":" ++ toString s.index

/-- What an instruction reads. -/
inductive Arg where
  | param (index : Nat)
  /-- A variable captured from outside. -/
  | free (index : Nat)
  | result (site : Site)
  | global (name : String)
  | function (name : String)
  | builtin (name : String)
  /-- A constant. Its number is there if it is an integer constant. -/
  | const (number : Option Int) (ty : Ty)
deriving Repr

/-- Whether an operand is a constant. -/
def Arg.isConst : Arg → Bool
  | .const .. => true
  | _ => false

/-- The operators on two operands. -/
inductive BinaryOp where
  | add | sub | mul | div | rem | and | or | xor | andNot | shiftLeft | shiftRight
  | eq | ne | lt | le | gt | ge
deriving DecidableEq, Repr

/-- The operators on one operand. -/
inductive UnaryOp where
  | load | receive | negate | not | complement
deriving DecidableEq, Repr

/-- The kinds of instruction. -/
inductive Kind where
  /-- Room for a variable. -/
  | alloc
  /-- A merge, with one operand for each predecessor. -/
  | phi
  /-- A call of the first operand on the others, or of one of its methods. -/
  | call (method : Option String)
  | binary (op : BinaryOp)
  | unary (op : UnaryOp)
  /-- A change of type that keeps the value as it is. -/
  | changeType
  | convert
  | multiConvert
  | changeInterface
  | sliceToArrayPointer
  | makeInterface
  /-- A function, the first operand, with the variables it captures. -/
  | makeClosure
  /-- A map, with room for as many entries as the operand says. -/
  | makeMap
  | makeChan
  | makeSlice
  | slice
  | fieldAddr
  | field
  | indexAddr
  | index
  /-- An entry of a map or a byte of a string. -/
  | lookup
  | select
  | range
  | next
  /-- The contents of an interface, as a type; with `commaOk`, failure is a result. -/
  | typeAssert (commaOk : Bool)
  /-- A part of a multiple result. -/
  | extract
  | jump
  | branch
  | ret
  | runDefers
  | panic
  /-- A call on the side. -/
  | go
  /-- A call on return. -/
  | defer
  | send
  /-- Write the second operand to the place that is the first. -/
  | store
  | mapUpdate
  /-- A note for debuggers. -/
  | debugRef
deriving DecidableEq, Repr

namespace Kind

/-- The name of a kind. -/
def name : Kind → String
  | alloc => "Alloc"
  | phi => "Phi"
  | call _ => "Call"
  | binary _ => "BinOp"
  | unary _ => "UnOp"
  | changeType => "ChangeType"
  | convert => "Convert"
  | multiConvert => "MultiConvert"
  | changeInterface => "ChangeInterface"
  | sliceToArrayPointer => "SliceToArrayPointer"
  | makeInterface => "MakeInterface"
  | makeClosure => "MakeClosure"
  | makeMap => "MakeMap"
  | makeChan => "MakeChan"
  | makeSlice => "MakeSlice"
  | slice => "Slice"
  | fieldAddr => "FieldAddr"
  | field => "Field"
  | indexAddr => "IndexAddr"
  | index => "Index"
  | lookup => "Lookup"
  | select => "Select"
  | range => "Range"
  | next => "Next"
  | typeAssert _ => "TypeAssert"
  | extract => "Extract"
  | jump => "Jump"
  | branch => "If"
  | ret => "Return"
  | runDefers => "RunDefers"
  | panic => "Panic"
  | go => "Go"
  | defer => "Defer"
  | send => "Send"
  | store => "Store"
  | mapUpdate => "MapUpdate"
  | debugRef => "DebugRef"

/-- Whether an instruction of the kind has a result. -/
def isValue : Kind → Bool
  | debugRef | defer | go | branch | jump | mapUpdate | panic | ret | runDefers | send | store =>
    false
  | _ => true

end Kind

/-- An instruction of a source function. -/
structure Instr where
  kind : Kind
  /-- What it reads, where a place may be empty. -/
  args : List (Option Arg)
  ty : Ty
  /-- Where it stands in the source text; `0` for one that stands nowhere. -/
  pos : Int
  /-- How it is printed. -/
  text : String
deriving Repr

/-- What stands at a place for an operand. -/
def Instr.arg? (i : Instr) (n : Nat) : Option Arg := (i.args[n]?).join

/-- A block of a source function. The blocks that it names are given by their positions in the
function, so these lie below the number of blocks there. A position beyond is no block, and lowering
has none for it. -/
structure Block where
  instrs : List Instr
  /-- The positions of the blocks that control comes from. -/
  preds : List Nat
  /-- The positions of the blocks that control goes to. -/
  succs : List Nat
deriving Repr

/-- A source function. -/
structure Func where
  name : String
  /-- Why it is there, if it does not stand in the source text. -/
  synthetic : String
  params : List Ty
  /-- The types of the variables it captures. -/
  free : List Ty
  blocks : List Block
deriving Repr

namespace Func

/-- The instruction at a site. -/
def instr? (fn : Func) (s : Site) : Option Instr := do
  let b ← fn.blocks[s.block]?
  b.instrs[s.index]?

/-- Every site of the function with its instruction, block by block. -/
def instrs (fn : Func) : List (Site × Instr) :=
  (fn.blocks.zipIdx.map fun (b, n) => b.instrs.zipIdx.map fun (i, k) => (⟨n, k⟩, i)).flatten

/-- The type of an operand. -/
def typeOf (fn : Func) : Arg → Ty
  | .param n => fn.params.getD n Ty.int
  | .free n => fn.free.getD n Ty.int
  | .result s => (fn.instr? s).elim Ty.int Instr.ty
  | .global _ => Ty.pointer
  | .function _ | .builtin _ => Ty.func
  | .const _ ty => ty

/-- The function that an operand is sure to be. -/
def static? (fn : Func) : Arg → Option String
  | .function name => some name
  | .result s =>
    match fn.instr? s with
    | some ⟨.makeClosure, some (.function name) :: _, _, _, _⟩ => some name
    | _ => none
  | _ => none

end Func

end Deadwood.Source
