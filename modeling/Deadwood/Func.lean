import Deadwood.Instr

/-!
# Blocks and functions

A **block** is a list of instructions under a label. A **function** has a pool of blocks and a
layout: the list of the blocks that make up its body, the first being the entry. The pool may hold
blocks outside the layout, to which instructions can still refer; a block may stand in the layout
more than once; and labels are for people, so two blocks may share one.
-/

namespace Deadwood

/-- Instructions under a label, with the blocks that control is recorded to come from. -/
structure Block where
  /-- The number it is printed with. -/
  label : Int
  body : List Instr
  /-- The blocks recorded as sending control here. -/
  preds : List BlockRef
deriving DecidableEq, Repr

namespace Block

/-- A block without instructions. -/
def empty (label : Int) : Block := ⟨label, [], []⟩

instance : Inhabited Block := ⟨empty 0⟩

/-- The instruction that ends the block, if its last one does so. -/
def terminator? (b : Block) : Option Instr := b.body.getLast?.filter (·.op.isTerminator)

/-- The blocks that the block may send control to. -/
def successors (b : Block) : List BlockRef :=
  match b.terminator? with
  | some i => i.op.targets
  | none => []

/-- Record that control comes from `p`, once. -/
def addPred (b : Block) (p : BlockRef) : Block :=
  if p ∈ b.preds then b else { b with preds := b.preds ++ [p] }

end Block

/-- A function: a pool of blocks, and which of them make up its body. -/
structure Func where
  name : String
  /-- Every block there is, inside the body and outside. -/
  pool : List Block
  /-- The blocks of the body, in order, the entry first. -/
  layout : List BlockRef
deriving DecidableEq, Repr, Inhabited

namespace Func

/-- The block at a position of the pool. Beyond the pool, every block is empty. -/
def block (fn : Func) (r : BlockRef) : Block := fn.pool.getD r default

/-- The label of the block at a position of the pool. -/
def label (fn : Func) (r : BlockRef) : Int := (fn.block r).label

/-- The blocks of the body, in order. -/
def body (fn : Func) : List Block := fn.layout.map fn.block

/-- The instructions of the body, position by position. -/
def code (fn : Func) : List Instr := fn.body.flatMap (·.body)

/-- The number of positions of the body that hold an instruction. -/
def size (fn : Func) : Nat := fn.code.length

/-- The entry block. -/
def entry? (fn : Func) : Option Block := fn.body.head?

/-- Change the block at a position of the pool. -/
def modifyBlock (fn : Func) (r : BlockRef) (f : Block → Block) : Func :=
  { fn with pool := fn.pool.modify r f }

end Func

end Deadwood
