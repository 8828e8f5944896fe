import Deadwood.Elimination
import Deadwood.Session
import Deadwood.Source.Program

/-!
# Lowering source functions

A source function becomes a function of the analysis with one block for each of its blocks and one
instruction for each of its instructions, notes for debuggers apart. Parameters and captured
variables are read at the head of the entry. Values are numbered in the order parameters, captured
variables, instructions with a result. Integer constants are literals, and whatever else needs no
computing is the literal zero.

Instructions that the analysis has no operation for become calls. The callee is named for the kind
of instruction, and sets apart the instructions of a kind that may fail or wait: a division, a shift
by a count that may be negative, a comparison that may meet interfaces, a load, a receive, a map
with room for a computed number of entries. So a set of names, `constNames`, says which instructions
have no effect of their own.
-/

namespace Deadwood.Source

/-- The callees that stand for instructions without an effect of their own. -/
def constNames : ConstSet := .ofList
  ["len", "cap", "real", "imag", "complex", "op:Alloc", "op:BinOp", "op:UnOp", "op:Convert",
   "op:ChangeInterface", "op:MakeInterface", "op:MakeClosure", "op:MakeMap", "op:Extract",
   "op:Field", "op:TypeAssertOk"]

/-- How many instructions some blocks have. -/
def Block.totalLength : List Block → Nat
  | [] => 0
  | b :: rest => b.instrs.length + totalLength rest

namespace Func

/-! ## Numbers -/

/-- How many values the function starts with. -/
def inputs (fn : Func) : Nat := fn.params.length + fn.free.length

/-- The sites of the instructions with a result, in order. -/
def valueSites (fn : Func) : List Site :=
  (fn.instrs.filter (·.2.kind.isValue)).map (·.1)

/-- The value that stands for the result at a site. -/
def resultAt? (fn : Func) (s : Site) : Option Value :=
  (fn.valueSites.idxOf? s).map fun k => Value.ofNat (fn.inputs + k + 1)

/-- The value that stands for an operand, if it has to be computed. -/
def valueOf? (fn : Func) : Arg → Option Value
  | .param n => if n < fn.params.length then some (Value.ofNat (n + 1)) else none
  | .free n =>
    if n < fn.free.length then some (Value.ofNat (fn.params.length + n + 1)) else none
  | .result s => fn.resultAt? s
  | _ => none

/-- How many instructions the blocks before a given one have. -/
def offset (fn : Func) (block : Nat) : Nat := Block.totalLength (fn.blocks.take block)

/-- The tag of the instruction that comes from a site. -/
def tagAt (fn : Func) (s : Site) : Nat := fn.inputs + fn.offset s.block + s.index

/-! ## Operands and callees -/

/-- An operand of the analysis for one of the source. -/
def operand (fn : Func) (a : Arg) : Operand :=
  match fn.valueOf? a with
  | some v => .ref v
  | none =>
    match a with
    | .const (some n) _ => .lit (Int64.ofInt n)
    | _ => .lit 0

/-- The operand at a place that may be empty, where it is the literal zero. -/
def slot (fn : Func) (a : Option Arg) : Operand := (a.map fn.operand).getD (.lit 0)

/-- Whether a shift by this count may fail, the count being negative. -/
def mayBeNegative (fn : Func) (count : Option Arg) : Bool :=
  match count with
  | some a => !a.isConst && !(fn.typeOf a).isUnsigned
  | none => true

/-- Whether comparing this operand may fail, there being an interface in it. -/
def mayHoldInterface (fn : Func) (a : Option Arg) : Bool :=
  (a.map fn.typeOf).any Ty.holdsInterface

/-- The callee that stands for an instruction which the analysis has no operation for. -/
def standIn (fn : Func) (i : Instr) : String :=
  match i.kind with
  | .binary .div | .binary .rem => "op:Div"
  | .binary .shiftLeft | .binary .shiftRight =>
    if fn.mayBeNegative (i.arg? 1) then "op:Shift" else "op:BinOp"
  | .binary .eq | .binary .ne =>
    if fn.mayHoldInterface (i.arg? 0) then "op:Compare" else "op:BinOp"
  | .makeMap => if (i.arg? 0).any (!·.isConst) then "op:MakeMapSized" else "op:MakeMap"
  | .unary .load => "op:Load"
  | .unary .receive => "op:Recv"
  | .typeAssert true => "op:TypeAssertOk"
  | kind => "op:" ++ kind.name

/-- The callee of a call: the method, the function called, or `dynamic` where that is not known
beforehand. -/
def calleeName (fn : Func) (method : Option String) (called : Option Arg) : String :=
  match method, called with
  | some m, _ => "invoke:" ++ m
  | none, some a =>
    match fn.static? a, a with
    | some name, _ => name
    | none, .builtin name => name
    | none, _ => "dynamic"
  | none, none => "dynamic"

/-- The operands of a call: what is called, and the arguments. -/
def callArgs (fn : Func) (i : Instr) : List Operand :=
  fn.slot (i.arg? 0) :: (i.args.drop 1).map fn.slot

/-! ## Instructions and blocks -/

/-- The incoming operands of a merge, one for each predecessor. Operands beyond the predecessors,
which no front end gives to a merge, have no block to come from and are left out. -/
def incoming (fn : Func) (b : Block) (i : Instr) : Incoming :=
  (b.preds.zip i.args).foldl (fun acc e => Incoming.set acc e.1 (fn.slot e.2)) []

/-- The operation for the instruction at a site of block `b`, unless it is only a note. No front end
leaves a jump or a branch without its successors; where one is missing, the entry stands in. -/
def lowerOp? (fn : Func) (b : Block) (s : Site) (i : Instr) : Option Op :=
  let dst := (fn.resultAt? s).getD Value.nothing
  match i.kind with
  | .debugRef => none
  | .phi => some (.phi dst (fn.incoming b i))
  | .ret => some (.ret (i.args.map fn.slot))
  | .branch => some (.branch (fn.slot (i.arg? 0)) (b.succs.getD 0 0) (b.succs.getD 1 0))
  | .jump => some (.jump (b.succs.getD 0 0))
  | .store => some (.store (fn.slot (i.arg? 0)) (fn.slot (i.arg? 1)))
  | .changeType => some (.copy dst (fn.slot (i.arg? 0)))
  | .call method =>
    some (.call dst (.named (fn.calleeName method (i.arg? 0))) (fn.callArgs i))
  | .go => some (.call Value.nothing (.named "go") (fn.callArgs i))
  | .defer => some (.call Value.nothing (.named "defer") (fn.callArgs i))
  | _ => some (.call dst (.named (fn.standIn i)) ((i.args.filterMap id).map fn.operand))

/-- The instructions for those of block number `n`, with their sites. -/
def lowerBlock (fn : Func) (n : Nat) (b : Block) : List (Deadwood.Instr × Site) :=
  b.instrs.zipIdx.filterMap fun (i, k) =>
    let s : Site := ⟨n, k⟩
    (fn.lowerOp? b s i).map fun op => (⟨fn.tagAt s, op⟩, s)

/-- The instructions that read the parameters and the captured variables. -/
def readInputs (fn : Func) : List Deadwood.Instr :=
  (List.range fn.inputs).map fun n => ⟨n, .param (Value.ofNat (n + 1)) n⟩

end Func

/-- A function of the analysis, with where its instructions come from. -/
structure Lowered where
  func : Deadwood.Func
  /-- The sites that its instructions come from. -/
  origins : List (Deadwood.Instr × Site)
deriving Repr

namespace Lowered

/-- The site that an instruction comes from. The instructions that read parameters come from
none. -/
def origin? (l : Lowered) (i : Deadwood.Instr) : Option Site := l.origins.lookup i

/-- The sites whose instructions are in the function and not in `after`, in order. -/
def lost (l : Lowered) (after : Deadwood.Func) : List Site :=
  (l.func.code.filter fun i => i ∉ after.code).filterMap l.origin?

end Lowered

namespace Func

/-- Lower a function. -/
def lower (fn : Func) : Lowered :=
  let rows := fn.blocks.mapIdx fn.lowerBlock
  let bodies := rows.mapIdx fun n row =>
    (if n = 0 then fn.readInputs else []) ++ row.map (·.1)
  let predsOf := fun s => (List.range bodies.length).filter fun p =>
    (bodies.getD p []).any fun i => decide (s ∈ i.op.targets)
  { func :=
      { name := fn.name
        pool := bodies.mapIdx fun n body => ⟨n, body, predsOf n⟩
        layout := List.range bodies.length }
    origins := rows.flatten }

end Func

end Deadwood.Source

namespace Deadwood.Session

open Source

/-- Eliminate the dead instructions of a lowered function, for which the instructions without an
effect are known, and tell from which sites they came. -/
def findDead (s : Session) (options : List Setting) (l : Lowered) :
    (Report × Except Fault (List Site)) × Session :=
  let (report, next) := s.eliminate (.oracle (some constNames.oracle) :: options) l.func
  ((report, report.outcome.map fun _ => l.lost report.after), next)

end Deadwood.Session
