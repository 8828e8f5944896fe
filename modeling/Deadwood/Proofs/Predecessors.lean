import Deadwood.Proofs.Building
import Deadwood.Proofs.Stability

/-!
# Recorded predecessors

A block records the blocks that control may come from, although this could be read off the
instructions of the function. The record is written when an instruction is emitted. After that,
merges are put between instructions, operands are filled in, and eliminations take instructions out.

**Theorem (`preds_exact`).** Start from blocks without instructions and without recorded
predecessors, and carry out any history of actions. Then no block is recorded twice, and `p` is
recorded with `s` exactly if some instruction of `p` that ends a block, wherever it stands, may send
control to `s`. In particular, where only the last instruction of `p` may be of that kind, `p` is
recorded with exactly its successors.

The invariant is `Func.Linked`. Emitting an instruction is the only action that changes either side
of it, and changes both alike (`linked_emit`). All others leave each block with the same record and
the same places to send control to (`Block.SameLinks`). For an elimination this holds because an
instruction that ends a block is always necessary.
-/

namespace Deadwood

/-- Only instructions that end a block send control anywhere. -/
theorem Op.isTerminator_of_mem_targets {op : Op} {s : BlockRef} (h : s ∈ op.targets) :
    op.isTerminator = true := by
  cases op with
  | branch | jump => rfl
  | _ => cases h

theorem Op.targets_of_isPhi {op : Op} (h : op.isPhi = true) : op.targets = [] := by
  cases op with
  | phi => rfl
  | _ => cases h

@[simp] theorem Instr.targets_receive (tag : Nat) (p : BlockRef) (x : Operand) (i : Instr) :
    (i.receive tag p x).op.targets = i.op.targets := by
  unfold Instr.receive
  split
  · cases i.op <;> rfl
  · rfl

/-! ## Blocks that are linked alike -/

namespace Block

variable {b : Block} {s : BlockRef}

/-- Some instruction of the block, wherever it stands, may send control to `s`. -/
def Sends (b : Block) (s : BlockRef) : Prop := ∃ i ∈ b.body, s ∈ i.op.targets

theorem sends_iff :
    b.Sends s ↔ ∃ i ∈ b.body, i.op.isTerminator = true ∧ s ∈ i.op.targets := by
  constructor
  · rintro ⟨i, hi, hs⟩
    exact ⟨i, hi, Op.isTerminator_of_mem_targets hs, hs⟩
  · rintro ⟨i, hi, -, hs⟩
    exact ⟨i, hi, hs⟩

/-- If no instruction before the last one ends a block, control is sent to the successors only. -/
theorem sends_iff_mem_successors (h : ∀ i ∈ b.body.dropLast, i.op.isTerminator = false) :
    b.Sends s ↔ s ∈ b.successors := by
  rw [sends_iff, mem_successors_iff]
  constructor
  · rintro ⟨i, hi, hterm, hs⟩
    have hne : b.body ≠ [] := List.ne_nil_of_mem hi
    rw [← List.dropLast_append_getLast hne, List.mem_append, List.mem_singleton] at hi
    rcases hi with hi | rfl
    · rw [h i hi] at hterm
      cases hterm
    · exact ⟨_, List.getLast?_eq_some_getLast hne, hterm, hs⟩
  · rintro ⟨i, hlast, hterm, hs⟩
    exact ⟨i, List.mem_of_getLast? hlast, hterm, hs⟩

/-- The blocks record the same predecessors, and may send control to the same blocks. -/
structure SameLinks (b c : Block) : Prop where
  preds : c.preds = b.preds
  sends : ∀ s, c.Sends s ↔ b.Sends s

theorem SameLinks.refl (b : Block) : b.SameLinks b := ⟨rfl, fun _ => Iff.rfl⟩

theorem sameLinks_insertMerge {i : Instr} (hphi : i.op.isPhi = true) (b : Block) :
    b.SameLinks { b with body := Builder.insertMerge i b.body } where
  preds := rfl
  sends s := by
    have hmem : ∀ j, j ∈ Builder.insertMerge i b.body ↔ j = i ∨ j ∈ b.body := fun j =>
      (Builder.perm_insertMerge i b.body).mem_iff.trans List.mem_cons
    simp [Sends, hmem, Op.targets_of_isPhi hphi]

theorem sameLinks_receive (tag : Nat) (p : BlockRef) (x : Operand) (b : Block) :
    b.SameLinks { b with body := b.body.map (·.receive tag p x) } where
  preds := rfl
  sends s := by simp [Sends]

/-- A sweep that spares the instructions that end blocks leaves the links. -/
theorem sameLinks_sweep {keep : Instr → Bool}
    (hkeep : ∀ i ∈ b.body, i.op.isTerminator = true → keep i = true) :
    b.SameLinks (b.sweep keep) where
  preds := rfl
  sends s := by
    constructor
    · rintro ⟨i, hi, hs⟩
      exact ⟨i, List.mem_of_mem_filter hi, hs⟩
    · rintro ⟨i, hi, hs⟩
      exact ⟨i, List.mem_filter.mpr ⟨hi, hkeep i hi (Op.isTerminator_of_mem_targets hs)⟩, hs⟩

end Block

namespace Func

variable {fn after : Func}

/-- Predecessors are recorded once each, and exactly where control may come from. -/
structure Linked (fn : Func) : Prop where
  nodup : ∀ s, (fn.block s).preds.Nodup
  exact : ∀ p s, p ∈ (fn.block s).preds ↔ (fn.block p).Sends s

theorem linked_of_empty (h : ∀ b ∈ fn.pool, b.body = [] ∧ b.preds = []) : fn.Linked := by
  have hblock : ∀ r, (fn.block r).body = [] ∧ (fn.block r).preds = [] := by
    intro r
    unfold block
    rw [List.getD_eq_getElem?_getD]
    cases hr : fn.pool[r]? with
    | none => exact ⟨rfl, rfl⟩
    | some b => exact h b (List.mem_of_getElem? hr)
  constructor
  · intro s
    simp [(hblock s).2]
  · intro p s
    simp [Block.Sends, hblock]

theorem Linked.of_sameLinks (h : fn.Linked)
    (hsame : ∀ r, (fn.block r).SameLinks (after.block r)) : after.Linked where
  nodup s := by
    rw [(hsame s).preds]
    exact h.nodup s
  exact p s := by
    rw [(hsame s).preds, (hsame p).sends]
    exact h.exact p s

/-! ## Actions that leave all links -/

theorem sameLinks_modifyBlock {f : Block → Block} (hf : ∀ b : Block, b.SameLinks (f b))
    (r s : BlockRef) : (fn.block s).SameLinks ((fn.modifyBlock r f).block s) := by
  by_cases hr : r < fn.pool.length
  · rw [block_modifyBlock hr]
    split
    · exact hf _
    · exact .refl _
  · have hsame : fn.modifyBlock r f = fn := by
      simp [modifyBlock, List.modify_eq_self (Nat.le_of_not_lt hr)]
    rw [hsame]
    exact .refl _

theorem sameLinks_append_empty (label : Int) (layout : List BlockRef) (s : BlockRef) :
    (fn.block s).SameLinks
      ((Func.mk fn.name (fn.pool ++ [Block.empty label]) layout).block s) := by
  rw [block_concat]
  split
  · next hs =>
    -- before it was made, the block counted as empty
    rw [block_of_le (Nat.le_of_eq hs.symm)]
    exact ⟨rfl, fun _ => Iff.rfl⟩
  · exact .refl _

theorem sameLinks_eliminate (oracle : Oracle) (r : BlockRef) :
    (fn.block r).SameLinks ((fn.eliminate oracle).2.block r) := by
  cases hend : (fn.eliminate oracle).1 with
  | error f =>
    rw [eliminate_of_error hend]
    exact .refl _
  | ok =>
    obtain ⟨keep, hkeep, hafter⟩ := eliminate_of_ok hend
    rw [hafter, block_sweep]
    split
    · next hr =>
      refine Block.sameLinks_sweep fun i hi hterm => ?_
      have hcode : i ∈ fn.code := mem_code_iff.mpr ⟨r, hr, hi⟩
      exact (hkeep i).mpr (.root hcode (Op.isRoot_of_isTerminator hterm oracle))
    · exact .refl _

end Func

/-! ## Histories -/

namespace Builder

open Func (Linked)

variable {b : Builder}

/-- **Emitting an instruction keeps the record exact.** -/
theorem linked_emit {r : BlockRef} {i : Instr} (h : b.func.Linked)
    (hblocks : ∀ t ∈ r :: i.op.targets, t < b.func.pool.length) : (b.emit r i).func.Linked where
  nodup s := by
    rw [block_emit hblocks]
    by_cases hs : s ∈ i.op.targets
    · simpa [hs] using Block.nodup_preds_addPred (h.nodup s)
    · simpa [hs] using h.nodup s
  exact p s := by
    have hsends : ((b.emit r i).func.block p).Sends s ↔
        (b.func.block p).Sends s ∨ p = r ∧ s ∈ i.op.targets := by
      unfold Block.Sends
      rw [block_emit hblocks]
      by_cases hp : p = r <;> simp [hp, or_and_right, exists_or]
    rw [hsends, ← h.exact p s, block_emit hblocks]
    by_cases hs : s ∈ i.op.targets <;> simp [hs]

theorem linked_write {r : BlockRef} {i : Instr} (h : b.func.Linked)
    (hblocks : ∀ t ∈ r :: i.op.targets, t < b.func.pool.length) : (b.write r i).Linked := by
  unfold write
  split
  · next hphi =>
    exact h.of_sameLinks (Func.sameLinks_modifyBlock (Block.sameLinks_insertMerge hphi) r)
  · exact linked_emit h hblocks

theorem linked_step (h : b.func.Linked) {s : Step}
    (hblocks : ∀ t ∈ s.blocks, t < b.func.pool.length) : (b.step s).2.func.Linked := by
  rcases b.step_cases s with ⟨r, op, hw⟩ | rfl | rfl | ⟨m, p, x, rfl⟩
  · rw [func_step_of_writes? hw]
    rw [Step.blocks_of_writes? hw] at hblocks
    exact linked_write h hblocks
  · exact h
  · exact h.of_sameLinks (Func.sameLinks_append_empty _ _)
  · show (b.setIncoming m p x).func.Linked
    unfold setIncoming
    cases b.merges[m]? with
    | none => exact h
    | some i =>
      refine h.of_sameLinks fun s => ?_
      rw [Func.block_map rfl]
      exact Block.sameLinks_receive i.tag p x _

/-- **Every action keeps the record exact.** -/
theorem linked_act (h : b.func.Linked) {a : Action}
    (hblocks : ∀ t ∈ a.blocks, t < b.func.pool.length) : (b.act a).2.func.Linked := by
  cases a with
  | step s => exact linked_step h hblocks
  | newForeign label => exact h.of_sameLinks (Func.sameLinks_append_empty label _)
  | append r => exact h.of_sameLinks fun s => .refl (b.func.block s)
  | setLabel r label =>
    have hsame : ∀ c : Block, c.SameLinks { c with label } := fun c => ⟨rfl, fun _ => Iff.rfl⟩
    exact h.of_sameLinks (Func.sameLinks_modifyBlock hsame r)
  | emit r i => exact linked_emit h hblocks
  | emitOp r op => exact linked_emit (b := (b.newInstr op).2) h hblocks
  | eliminate oracle => exact h.of_sameLinks (Func.sameLinks_eliminate oracle)

/-- Every history keeps the record exact. -/
theorem linked_run (h : b.func.Linked) {actions : List Action}
    (hscoped : Scoped b.func.pool.length actions) : (b.run actions).func.Linked := by
  induction actions generalizing b with
  | nil => exact h
  | cons a rest ih =>
    refine ih (linked_act h hscoped.1) ?_
    rw [length_pool_act]
    exact hscoped.2

/-- **Predecessors are recorded exactly.** Let the blocks of a builder have no instructions and no
recorded predecessors. After any history, no block is recorded twice as a predecessor, and a block
is recorded exactly if one of its instructions that end a block, wherever it stands, may send
control there. If no instruction of a block before the last one ends a block, then it is recorded
exactly with its successors. -/
theorem preds_exact (b : Builder) (actions : List Action)
    (hempty : ∀ blk ∈ b.func.pool, blk.body = [] ∧ blk.preds = [])
    (hscoped : Scoped b.func.pool.length actions) :
    (∀ s, ((b.run actions).func.block s).preds.Nodup) ∧
    (∀ p s, p ∈ ((b.run actions).func.block s).preds ↔
      ∃ i ∈ ((b.run actions).func.block p).body, i.op.isTerminator = true ∧ s ∈ i.op.targets) ∧
    ∀ p, (∀ i ∈ ((b.run actions).func.block p).body.dropLast, i.op.isTerminator = false) →
      ∀ s, p ∈ ((b.run actions).func.block s).preds ↔
        s ∈ ((b.run actions).func.block p).successors := by
  have hlinked : (b.run actions).func.Linked := linked_run (Func.linked_of_empty hempty) hscoped
  refine ⟨hlinked.nodup, fun p s => ?_, fun p hlast s => ?_⟩
  · rw [hlinked.exact, Block.sends_iff]
  · rw [hlinked.exact, Block.sends_iff_mem_successors hlast]

/-- A builder with a block outside the layout. -/
def yard : Builder := (start "yard").newForeign (-3)

/-- A branch names one target twice and is emitted once more, outside the body. A merge is made and
swept away. A block sends control away before it returns, and refers to a value without a
definition, so that the second elimination fails. -/
def yardHistory : List Action := [
  .step .newBlock, .step .newBlock, .step (.param 1), .step (.branch 1 (.ref ⟨1⟩) 2 2),
  .emit 0 ⟨1, .branch (.ref ⟨1⟩) 2 2⟩, .step (.phi 2), .step (.setIncoming 0 1 (.ref ⟨1⟩)),
  .step (.jump 2 0), .eliminate (.ofRule fun _ => false), .step (.ret 2 [.ref ⟨9⟩]),
  .eliminate (.ofRule fun _ => false)]

theorem run_yard : (yard.run yardHistory).func =
    { name := "yard"
      pool := [
        ⟨-3, [⟨1, .branch (.ref ⟨1⟩) 2 2⟩], [2]⟩,
        ⟨0, [⟨0, .param ⟨1⟩ 0⟩, ⟨1, .branch (.ref ⟨1⟩) 2 2⟩], []⟩,
        ⟨1, [⟨3, .jump 0⟩, ⟨4, .ret [.ref ⟨9⟩]⟩], [1, 0]⟩]
      layout := [1, 2] } := by
  cbv

theorem yard_preds :
    (∀ blk ∈ yard.func.pool, blk.body = [] ∧ blk.preds = []) ∧
    Scoped yard.func.pool.length yardHistory ∧
    ((yard.run yardHistory).func.block 2).preds = [1, 0] ∧
    ((yard.run yardHistory).func.block 2).successors = [] ∧
    (∃ i ∈ ((yard.run yardHistory).func.block 2).body,
      i.op.isTerminator = true ∧ 0 ∈ i.op.targets) ∧
    ∀ s, 1 ∈ ((yard.run yardHistory).func.block s).preds ↔
      s ∈ ((yard.run yardHistory).func.block 1).successors := by
  have hempty : ∀ blk ∈ yard.func.pool, blk.body = [] ∧ blk.preds = [] := by decide
  have hscoped : Scoped yard.func.pool.length yardHistory := by decide
  have hexact := preds_exact yard yardHistory hempty hscoped
  refine ⟨hempty, hscoped, ?_, ?_, (hexact.2.1 2 0).mp ?_, hexact.2.2 1 ?_⟩
  all_goals
    rw [run_yard]
    decide

end Builder

end Deadwood
