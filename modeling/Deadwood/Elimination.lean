import Deadwood.Marking

/-!
# Elimination of dead instructions

An elimination marks the necessary instructions of a function and then sweeps away all others, block
by block. It works on the function in place: what it has done when it fails stays done. Marking
touches nothing, and the sweep touches nothing but the bodies of the blocks in the layout. Blocks
outside it, labels, recorded predecessors and the order of what stays are as before.
-/

namespace Deadwood

/-- Keep only the instructions that `keep` accepts. -/
def Block.sweep (keep : Instr → Bool) (b : Block) : Block :=
  { b with body := b.body.filter keep }

namespace Func

/-- Keep, in every block of the layout, only the instructions that `keep` accepts. A block that
stands there twice is swept twice. -/
def sweep (fn : Func) (keep : Instr → Bool) : Func :=
  fn.layout.foldl (fun f r => f.modifyBlock r (Block.sweep keep)) fn

end Func

/-- Work on a function in place, which may fail on the way. -/
abbrev Edit := ExceptT Fault (StateM Func)

namespace Edit

/-- Carry out the work on a function: how it ended, and the function it leaves. -/
def on (e : Edit Unit) (fn : Func) : Except Fault Unit × Func :=
  Id.run (StateT.run (ExceptT.run e) fn)

/-- Remove every instruction of the body that is not necessary. -/
def eliminate (oracle : Oracle) : Edit Unit := do
  let fn ← get
  let marks ← ofExcept (Marking.run oracle fn)
  modify fun fn => fn.sweep marks.keeps

end Edit

namespace Func

/-- Remove every instruction of the body that is not necessary: how that ended, and the function it
leaves. -/
def eliminate (oracle : Oracle) (fn : Func) : Except Fault Unit × Func :=
  (Edit.eliminate oracle).on fn

/-- The elimination as a pass over functions, which may come without an oracle. Then no callee is
const. -/
def pass (oracle : Option Oracle) (fn : Func) : Except Fault Unit × Func :=
  fn.eliminate (.inForce oracle)

end Func

end Deadwood
