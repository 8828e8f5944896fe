import Deadwood.Flow
import Deadwood.Func.Printer
import Deadwood.Text.Quoted

/-!
# Well-formed functions

What a function has to satisfy before its instructions can be judged by their uses:

* no value is defined at two positions of the body;
* in every block, an instruction that ends a block is the last one and merges come before all
  else;
* every merge receives from blocks of the body from which control may come;
* every value referred to is defined.

`malformed?` looks for the first fault, in this order: a second definition anywhere, then block by
block and instruction by instruction the others, the incoming operands of a merge by ascending
labels. The blocks that a merge receives from are looked up by their labels, and so is the control
flow. Where several of them share a label, only the last one is looked at. Which one is the last
depends on the order in which a check goes through them. A merge gives no such order, and each check
draws one anew; the list of incoming operands stands for one that was drawn.
-/

namespace Deadwood

/-- What is wrong with a function. An instruction is given by its text. -/
inductive Defect where
  /-- A value is defined at two positions. -/
  | redefined (v : Value)
  /-- An instruction that ends a block stands before its last position. -/
  | earlyTerminator (instr : String)
  /-- A merge stands after another kind of instruction. -/
  | latePhi (instr : String)
  /-- A merge receives from a block outside the body. -/
  | foreignIncoming (instr : String) (label : Int)
  /-- A merge receives from a block from which control cannot come. -/
  | falseIncoming (instr : String) (label : Int)
  /-- A value is referred to and not defined. -/
  | undefined (v : Value) (instr : String)
  /-- A fault found by someone else, in their words. -/
  | other (text : String)
deriving DecidableEq, Repr

/-- The wording of a defect. -/
def Defect.message : Defect → String
  | redefined v => v.text ++ " is defined more than once"
  | earlyTerminator instr => "terminator " ++ Text.quote instr ++ " is not the last instruction"
  | latePhi instr => "phi node " ++ Text.quote instr ++ " follows a non-phi instruction"
  | foreignIncoming instr label =>
    "phi node " ++ Text.quote instr ++ " merges from " ++ Block.nameOf label
      ++ " outside the function"
  | falseIncoming instr label =>
    "phi node " ++ Text.quote instr ++ " merges from " ++ Block.nameOf label
      ++ " which is not a predecessor"
  | undefined v instr => v.text ++ " used by " ++ Text.quote instr ++ " is never defined"
  | other text => text

/-- A function is malformed: where, and in what way. -/
structure Malformed where
  func : String
  block : Int
  defect : Defect
deriving DecidableEq, Repr

/-- The wording for a malformed function. -/
def Malformed.message (m : Malformed) : String :=
  "ssa: malformed function " ++ m.func ++ " at " ++ Block.nameOf m.block ++ ": "
    ++ m.defect.message

/-- The block that stands for the label of `r` among those a merge receives from. Of several that
share the label it is the last in the list. -/
def Incoming.namesake (label : BlockRef → Int) (incoming : Incoming) (r : BlockRef) : BlockRef :=
  ((incoming.map (·.1)).reverse.find? fun p => decide (label p = label r)).getD r

namespace Func

/-- Every position of the body: the label of its block, and its instruction. -/
def positions (fn : Func) : List (Int × Instr) :=
  fn.body.flatMap fun b => b.body.map fun i => (b.label, i)

/-- The first position, with the value, that defines a value again. The values of `seen` are
defined already. -/
def redefinition? : (seen : List Value) → List (Int × Instr) → Option (Int × Value)
  | _, [] => none
  | seen, (label, i) :: rest =>
    match i.op.result? with
    | some v => if v ∈ seen then some (label, v) else redefinition? (v :: seen) rest
    | none => redefinition? seen rest

/-- Whether some instruction of the body defines the value. -/
def isDefined (fn : Func) (v : Value) : Bool := fn.code.any fun i => i.op.result? == some v

/-- What is wrong with the incoming operands of a merge in block `b`. -/
def incomingDefect? (fn : Func) (b : Block) (i : Instr) : Option Defect :=
  match i.op with
  | .phi _ incoming => (incoming.labelled fn.label).findSome? fun e =>
    if incoming.namesake fn.label e.2.1 ∉ fn.layout then
      some (.foreignIncoming (fn.instrText i) e.1)
    else if fn.hasEdge e.1 b.label then none
    else some (.falseIncoming (fn.instrText i) e.1)
  | _ => none

/-- The first value that an instruction refers to and that is not defined. -/
def useDefect? (fn : Func) (i : Instr) : Option Defect :=
  (i.op.refs.find? fun v => !fn.isDefined v).map fun v => .undefined v (fn.instrText i)

/-- What is wrong with an instruction of block `b`. `isLast` says that it is the last one, and
`afterOther` that one that is no merge comes before it. -/
def instrDefect? (fn : Func) (b : Block) (isLast afterOther : Bool) (i : Instr) :
    Option Defect :=
  if i.op.isTerminator && !isLast then some (.earlyTerminator (fn.instrText i))
  else if i.op.isPhi && afterOther then some (.latePhi (fn.instrText i))
  else (fn.incomingDefect? b i).or (fn.useDefect? i)

/-- The first thing that is wrong in a row of instructions at the end of block `b`. -/
def bodyDefect? (fn : Func) (b : Block) : (afterOther : Bool) → List Instr → Option Defect
  | _, [] => none
  | afterOther, i :: rest =>
    (fn.instrDefect? b rest.isEmpty afterOther i).or
      (fn.bodyDefect? b (afterOther || !i.op.isPhi) rest)

/-- What is wrong with the function, if anything is, to a check that goes through the incoming
operands of a merge in the order of the list. Another check of the same function may draw another
order, and where blocks share a label it may object to what this one passes. What is said of all
checks is said of the function with its merges shuffled in every way. -/
def malformed? (fn : Func) : Option Malformed :=
  match redefinition? [] fn.positions with
  | some (label, v) => some ⟨fn.name, label, .redefined v⟩
  | none => fn.body.findSome? fun b =>
    (fn.bodyDefect? b false b.body).map fun d => ⟨fn.name, b.label, d⟩

end Func

end Deadwood
