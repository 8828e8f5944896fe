import Deadwood.Func

/-!
# The text of a function

One line per instruction, under the label of its block:

    func gcd {
    bb_0:
        %v1 = param(#0)
        br %v1, bb_1, bb_2
    ...
    }

The incoming operands of a merge are written in ascending order of the labels of their blocks.
-/

namespace Deadwood

/-- Operands, divided by commas. -/
def Operand.listText (xs : List Operand) : String :=
  ", ".intercalate (xs.map Operand.text)

/-- The name of the block with a label. -/
def Block.nameOf (label : Int) : String := "bb_" ++ toString label

/-- Incoming operands with the labels of their blocks, in ascending order of the labels. -/
def Incoming.labelled (label : BlockRef → Int) (incoming : Incoming) :
    List (Int × BlockRef × Operand) :=
  (incoming.map fun e => (label e.1, e)).mergeSort fun a b => decide (a.1 ≤ b.1)

/-- The text of an operation, where `label` gives the labels of blocks. -/
def Op.text (label : BlockRef → Int) : Op → String
  | ret results => "ret \x7b" ++ Operand.listText results ++ "\x7d"
  | copy dst src => dst.text ++ " = " ++ src.text
  | phi dst incoming =>
    let edges := (incoming.labelled label).map fun e =>
      Block.nameOf e.1 ++ ": " ++ e.2.2.text
    dst.text ++ " = φ(" ++ ", ".intercalate edges ++ ")"
  | call dst callee args =>
    let callText := "call " ++ callee.text ++ "(" ++ Operand.listText args ++ ")"
    if dst.IsSome then dst.text ++ " = " ++ callText else callText
  | param dst index => dst.text ++ " = param(#" ++ toString index ++ ")"
  | branch cond yes no =>
    "br " ++ cond.text ++ ", " ++ Block.nameOf (label yes) ++ ", " ++ Block.nameOf (label no)
  | jump target => "goto " ++ Block.nameOf (label target)
  | store mem src => "store(" ++ src.text ++ " -> *" ++ mem.text ++ ")"
  | breakpoint => "breakpoint"
  | unknown text => text

namespace Func

/-- The text of an instruction of the function. -/
def instrText (fn : Func) (i : Instr) : String := i.op.text fn.label

/-- The text of a block of the function: its name, then one indented line per instruction. -/
def blockText (fn : Func) (b : Block) : String :=
  "\n".intercalate ((Block.nameOf b.label ++ ":") :: b.body.map fun i => "    " ++ fn.instrText i)

/-- The text of the function: its name and its blocks in order. -/
def text (fn : Func) : String :=
  "func " ++ fn.name ++ " \x7b\n" ++ "\n".intercalate (fn.body.map fn.blockText) ++ "\n\x7d"

end Func

end Deadwood
