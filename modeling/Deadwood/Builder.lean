import Deadwood.Func

/-!
# Building functions

A builder makes a function block by block. Values are numbered from one in the order they are asked
for, parameters from zero, and a new block gets the number of blocks then in the layout for a
label. Whenever an instruction that ends a block is added, its targets record the block as a
predecessor.

A merge is made without incoming operands and is put after the merges its block already has. The
operands are given to it later, wherever it then stands, and whether it stands anywhere: the builder
remembers the merges it made.
-/

namespace Deadwood

/-- A function in the making. -/
structure Builder where
  func : Func
  /-- The last value handed out. -/
  lastValue : Value
  nextParam : Nat
  nextTag : Nat
  merges : List Instr

/-- A merge that a builder made, by its place among them. -/
abbrev MergeRef := Nat

namespace Builder

/-- Start on a function without blocks. -/
def start (name : String) : Builder := ⟨⟨name, [], []⟩, Value.nothing, 0, 0, []⟩

/-- Hand out a value. -/
def newValue (b : Builder) : Value × Builder :=
  let v : Value := ⟨b.lastValue.num + 1⟩
  (v, { b with lastValue := v })

/-- The position that the next block of the pool gets. -/
def nextBlock (b : Builder) : BlockRef := b.func.pool.length

/-- Make a block outside the layout. -/
def newForeign (b : Builder) (label : Int) : Builder :=
  { b with func := { b.func with pool := b.func.pool ++ [Block.empty label] } }

/-- Put a block at the end of the layout. -/
def append (b : Builder) (r : BlockRef) : Builder :=
  { b with func := { b.func with layout := b.func.layout ++ [r] } }

/-- Make a block at the end of the layout. -/
def newBlock (b : Builder) : Builder :=
  (b.newForeign b.func.layout.length).append b.nextBlock

/-- Give a block another label. -/
def setLabel (b : Builder) (r : BlockRef) (label : Int) : Builder :=
  { b with func := b.func.modifyBlock r fun blk => { blk with label } }

/-- Add an instruction to a block, and record the block with its targets. -/
def emit (b : Builder) (r : BlockRef) (i : Instr) : Builder :=
  let linked := i.op.targets.foldl (fun fn s => fn.modifyBlock s (·.addPred r)) b.func
  { b with func := linked.modifyBlock r fun blk => { blk with body := blk.body ++ [i] } }

/-- Make a new instruction. -/
def newInstr (b : Builder) (op : Op) : Instr × Builder :=
  (⟨b.nextTag, op⟩, { b with nextTag := b.nextTag + 1 })

/-- Add a new instruction to a block. -/
def emitOp (b : Builder) (r : BlockRef) (op : Op) : Builder :=
  let (i, b) := b.newInstr op
  b.emit r i

/-- Add a new instruction with a result to a block. -/
def define (b : Builder) (r : BlockRef) (op : Value → Op) : Value × Builder :=
  let (v, b) := b.newValue
  (v, b.emitOp r (op v))

/-- Read the next parameter. -/
def param (b : Builder) (r : BlockRef) : Value × Builder :=
  let (v, c) := b.define r (.param · b.nextParam)
  (v, { c with nextParam := b.nextParam + 1 })

/-- Name an operand. -/
def copy (b : Builder) (r : BlockRef) (src : Operand) : Value × Builder :=
  b.define r (.copy · src)

/-- Call a function for its result. -/
def call (b : Builder) (r : BlockRef) (name : String) (args : List Operand) : Value × Builder :=
  b.define r (.call · (.named name) args)

/-- Call a function and throw its result away. -/
def callVoid (b : Builder) (r : BlockRef) (name : String) (args : List Operand) : Builder :=
  b.emitOp r (.call Value.nothing (.named name) args)

/-- Write to memory. -/
def store (b : Builder) (r : BlockRef) (mem src : Operand) : Builder := b.emitOp r (.store mem src)

/-- Stop for a debugger. -/
def breakpoint (b : Builder) (r : BlockRef) : Builder := b.emitOp r .breakpoint

/-- Return. -/
def ret (b : Builder) (r : BlockRef) (results : List Operand) : Builder :=
  b.emitOp r (.ret results)

/-- Jump. -/
def jump (b : Builder) (r target : BlockRef) : Builder := b.emitOp r (.jump target)

/-- Branch. -/
def branch (b : Builder) (r : BlockRef) (cond : Operand) (yes no : BlockRef) : Builder :=
  b.emitOp r (.branch cond yes no)

/-- Put a merge after the merges at the head of a list of instructions. -/
def insertMerge (i : Instr) (body : List Instr) : List Instr :=
  body.takeWhile (·.op.isPhi) ++ i :: body.dropWhile (·.op.isPhi)

/-- Make a merge, without incoming operands. -/
def phi (b : Builder) (r : BlockRef) : Value × Builder :=
  let (v, b) := b.newValue
  let (i, b) := b.newInstr (.phi v [])
  (v, { b with
    func := b.func.modifyBlock r fun blk => { blk with body := insertMerge i blk.body }
    merges := b.merges ++ [i] })

end Builder

/-- Let a merge receive an operand from a block. -/
def Op.receive (p : BlockRef) (x : Operand) : Op → Op
  | .phi dst incoming => .phi dst (incoming.set p x)
  | op => op

/-- Let the instruction with a tag receive an operand from a block. -/
def Instr.receive (tag : Nat) (p : BlockRef) (x : Operand) (i : Instr) : Instr :=
  if i.tag = tag then { i with op := i.op.receive p x } else i

namespace Builder

/-- Let a merge that the builder made receive an operand from block `p`, in place of what it
received from there before. -/
def setIncoming (b : Builder) (m : MergeRef) (p : BlockRef) (x : Operand) : Builder :=
  match b.merges[m]? with
  | none => b
  | some i =>
    { b with
      func := { b.func with pool := b.func.pool.map fun blk =>
        { blk with body := blk.body.map (·.receive i.tag p x) } }
      merges := b.merges.map (·.receive i.tag p x) }

end Builder

end Deadwood
