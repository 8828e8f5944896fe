import Deadwood.Builder
import Deadwood.Elimination

/-!
# Histories of a builder

A **step** is one of the calls that a builder offers. An **action** is a step, or something that is
done to the function while it is being built: a block is made outside the layout, put into it or
given another label, an instruction of any kind is added to a block, or an elimination is run on
what there is so far. A history is a list of actions, and `run` carries them out one after the
other.
-/

namespace Deadwood.Builder

/-- One of the calls that a builder offers. -/
inductive Step where
  | newValue
  | newBlock
  | param (r : BlockRef)
  | copy (r : BlockRef) (src : Operand)
  | phi (r : BlockRef)
  | setIncoming (m : MergeRef) (p : BlockRef) (x : Operand)
  | call (r : BlockRef) (name : String) (args : List Operand)
  | callVoid (r : BlockRef) (name : String) (args : List Operand)
  | store (r : BlockRef) (mem src : Operand)
  | breakpoint (r : BlockRef)
  | ret (r : BlockRef) (results : List Operand)
  | jump (r target : BlockRef)
  | branch (r : BlockRef) (cond : Operand) (yes no : BlockRef)
deriving DecidableEq, Repr

/-- Take a step: the value that it hands out, if it does, and the builder after it. -/
def step (b : Builder) : Step → Option Value × Builder
  | .newValue => b.newValue.map some id
  | .newBlock => (none, b.newBlock)
  | .param r => (b.param r).map some id
  | .copy r src => (b.copy r src).map some id
  | .phi r => (b.phi r).map some id
  | .setIncoming m p x => (none, b.setIncoming m p x)
  | .call r name args => (b.call r name args).map some id
  | .callVoid r name args => (none, b.callVoid r name args)
  | .store r mem src => (none, b.store r mem src)
  | .breakpoint r => (none, b.breakpoint r)
  | .ret r results => (none, b.ret r results)
  | .jump r target => (none, b.jump r target)
  | .branch r cond yes no => (none, b.branch r cond yes no)

/-- Something that is done with a builder and the function in it. -/
inductive Action where
  | step (s : Step)
  | newForeign (label : Int)
  | append (r : BlockRef)
  | setLabel (r : BlockRef) (label : Int)
  /-- Add an instruction to a block, be it one that stands elsewhere already. -/
  | emit (r : BlockRef) (i : Instr)
  /-- Add a new instruction to a block. -/
  | emitOp (r : BlockRef) (op : Op)
  /-- Run an elimination on the function. -/
  | eliminate (oracle : Oracle)

/-- Carry out an action: the value that it hands out, if it does, and the builder after it. -/
def act (b : Builder) : Action → Option Value × Builder
  | .step s => b.step s
  | .newForeign label => (none, b.newForeign label)
  | .append r => (none, b.append r)
  | .setLabel r label => (none, b.setLabel r label)
  | .emit r i => (none, b.emit r i)
  | .emitOp r op => (none, b.emitOp r op)
  | .eliminate oracle => (none, { b with func := (b.func.eliminate oracle).2 })

/-- Carry out actions one after the other. -/
def run (b : Builder) (actions : List Action) : Builder := actions.foldl (fun b a => (b.act a).2) b

/-- Take steps one after the other. -/
def build (b : Builder) (steps : List Step) : Builder := b.run (steps.map .step)

end Deadwood.Builder
