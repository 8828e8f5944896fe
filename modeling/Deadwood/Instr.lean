import Deadwood.Value

/-!
# Instructions

An **operation** says what is done: return, copy, merge, call, read a parameter, branch, jump,
store, stop for a debugger. An **instruction** is an operation at one place of a program, and its
tag tells it from every other instruction with the same operation. The same instruction may stand
at several positions, and whatever is said of it at one holds at all of them.

Operations refer to blocks by their position in the pool of blocks of the function.

The rest of the module reads off an operation what it defines (`def?`, `result?`), what it reads
(`uses?`, `refs`) and where it sends control (`targets`).
-/

namespace Deadwood

/-- A block, by its position in the pool of blocks of its function. -/
abbrev BlockRef := Nat

/-- Whom a call calls. -/
inductive Callee where
  | named (name : String)
  /-- A callee nothing is known of. -/
  | unresolved
deriving DecidableEq, Repr, Inhabited

/-- The text of a callee: its name. -/
def Callee.text : Callee → String
  | .named name => name
  | .unresolved => "<nil>"

/-- The operands that a merge receives, by the block control comes from. -/
abbrev Incoming := List (BlockRef × Operand)

/-- Receive `x` from block `b`, in place of what was received from there before. -/
def Incoming.set : Incoming → BlockRef → Operand → Incoming
  | [], b, x => [(b, x)]
  | e :: rest, b, x => if e.1 = b then (b, x) :: rest else e :: Incoming.set rest b x

/-- What an instruction does. -/
inductive Op where
  /-- Leave the function with these results. -/
  | ret (results : List Operand)
  /-- Name an operand. -/
  | copy (dst : Value) (src : Operand)
  /-- Merge: take the operand that belongs to the block control came from. -/
  | phi (dst : Value) (incoming : Incoming)
  | call (dst : Value) (callee : Callee) (args : List Operand)
  /-- Read the parameter of that number. -/
  | param (dst : Value) (index : Int)
  | branch (cond : Operand) (yes no : BlockRef)
  | jump (target : BlockRef)
  /-- Write `src` to the place `mem` points to. -/
  | store (mem src : Operand)
  | breakpoint
  /-- An operation known by its text only. -/
  | unknown (text : String)
deriving DecidableEq, Repr, Inhabited

namespace Op

/-- The value that the operation gives its result to, for the operations that have one. It names
nothing where the result is thrown away. -/
def def? : Op → Option Value
  | copy dst _ | phi dst _ | call dst _ _ | param dst _ => some dst
  | _ => none

/-- The operands that the operation reads, for the operations that have any place for them. -/
def uses? : Op → Option (List Operand)
  | ret results => some results
  | copy _ src => some [src]
  | phi _ incoming => some (incoming.map (·.2))
  | call _ _ args => some args
  | branch cond _ _ => some [cond]
  | store mem src => some [mem, src]
  | _ => none

/-- The operands that the operation reads. -/
def uses (op : Op) : List Operand := op.uses?.getD []

/-- The values that the operation refers to, in the order of its operands. -/
def refs (op : Op) : List Value := op.uses.filterMap Operand.value?

/-- Whether the operation ends a block. -/
def isTerminator : Op → Bool
  | ret _ | branch .. | jump _ => true
  | _ => false

/-- Whether the operation is a merge. -/
def isPhi : Op → Bool
  | phi .. => true
  | _ => false

/-- The blocks that the operation may send control to. -/
def targets : Op → List BlockRef
  | branch _ yes no => [yes, no]
  | jump target => [target]
  | _ => []

/-- Whether the operation is one that the analysis understands. -/
def isKnown : Op → Bool
  | unknown _ => false
  | _ => true

/-- The name that the operation gives its result, if it gives it one. -/
def result? (op : Op) : Option Value := op.def?.filter fun v => decide v.IsSome

end Op

/-- An operation at one place of a program. Instructions with different tags are different, also
where they do the same. -/
structure Instr where
  /-- What tells the instruction from others. -/
  tag : Nat
  op : Op
deriving DecidableEq, Repr, Inhabited

end Deadwood
