import Deadwood.Builder.History
import Deadwood.Proofs.Elimination

/-!
# What the actions of a builder change

A builder offers a dozen calls, and most of them do the same: they write one instruction into one
block. `Step.writes?` reads off a step which operation that is and where it goes, and
`func_step_of_writes?` says that this is all the step does to the function. Merges are put after the
merges of their block, everything else is put at its end (`write`, `body_write`). Only `emit`
touches recorded predecessors (`block_emit`).

Blocks are named by their position in the pool, so a history makes sense only if it names blocks
that exist by then. `Scoped` says so. It depends on the history alone, because the pool grows with
the actions that make a block and never otherwise (`length_pool_act`).
-/

namespace Deadwood

/-! ## Single blocks -/

namespace Block

variable {b : Block} {p q : BlockRef}

theorem addPred_eq (b : Block) (p : BlockRef) :
    b.addPred p = { b with preds := (b.addPred p).preds } := by
  unfold addPred
  split <;> rfl

@[simp] theorem mem_preds_addPred : q ∈ (b.addPred p).preds ↔ q ∈ b.preds ∨ q = p := by
  unfold addPred
  split
  · next hp => exact ⟨Or.inl, fun h => h.elim id fun hq => hq ▸ hp⟩
  · simp

theorem nodup_preds_addPred (h : b.preds.Nodup) : (b.addPred p).preds.Nodup := by
  unfold addPred
  split
  · exact h
  · next hp => exact List.nodup_append.mpr ⟨h, by simp, by grind⟩

theorem addPred_addPred (b : Block) (p : BlockRef) : (b.addPred p).addPred p = b.addPred p := by
  rw [addPred, if_pos (mem_preds_addPred.mpr (Or.inr rfl))]

end Block

namespace Func

variable {fn : Func}

@[simp] theorem length_pool_modifyBlock (fn : Func) (r : BlockRef) (f : Block → Block) :
    (fn.modifyBlock r f).pool.length = fn.pool.length :=
  List.length_modify ..

theorem block_modifyBlock {r : BlockRef} (hr : r < fn.pool.length) (f : Block → Block)
    (s : BlockRef) :
    (fn.modifyBlock r f).block s = if s = r then f (fn.block s) else fn.block s := by
  by_cases hs : s = r
  · subst hs
    simp [block, modifyBlock, hr]
  · rw [block_modifyBlock_of_ne fn hs, if_neg hs]

theorem block_of_le {s : BlockRef} (h : fn.pool.length ≤ s) : fn.block s = default :=
  List.getD_eq_default _ _ h

/-- A change to all blocks that leaves the empty one is made to each of them. -/
theorem block_map {f : Block → Block} (hf : f default = default) (s : BlockRef) :
    (Func.mk fn.name (fn.pool.map f) fn.layout).block s = f (fn.block s) := by
  have hget := List.getD_map (n := s) fn.pool default f
  rw [hf] at hget
  exact hget

/-- A new block comes after all others. -/
theorem block_concat (fn : Func) (blk : Block) (layout : List BlockRef) (s : BlockRef) :
    (Func.mk fn.name (fn.pool ++ [blk]) layout).block s =
      if s = fn.pool.length then blk else fn.block s := by
  show (fn.pool ++ [blk]).getD s default = _
  rcases Nat.lt_trichotomy s fn.pool.length with hs | hs | hs
  · rw [List.getD_append _ _ _ _ hs, if_neg (Nat.ne_of_lt hs)]
    rfl
  · simp [hs]
  · rw [if_neg (Nat.ne_of_gt hs), block_of_le (Nat.le_of_lt hs), List.getD_eq_default]
    simpa using hs

/-- Recording a block with several others. -/
theorem block_foldl_addPred (r : BlockRef) (targets : List BlockRef)
    (htargets : ∀ t ∈ targets, t < fn.pool.length) (s : BlockRef) :
    (targets.foldl (fun fn t => fn.modifyBlock t (·.addPred r)) fn).block s =
      if s ∈ targets then (fn.block s).addPred r else fn.block s := by
  induction targets generalizing fn with
  | nil => simp
  | cons t rest ih =>
    rw [List.forall_mem_cons] at htargets
    have hrest : ∀ u ∈ rest, u < (fn.modifyBlock t (·.addPred r)).pool.length := by
      simpa using htargets.2
    rw [List.foldl_cons, ih hrest, block_modifyBlock htargets.1]
    by_cases hst : s = t <;> by_cases hs : s ∈ rest <;> simp [hst, hs, Block.addPred_addPred]

theorem frame_foldl_addPred (r : BlockRef) (targets : List BlockRef) (fn : Func) :
    let linked := targets.foldl (fun fn t => fn.modifyBlock t (·.addPred r)) fn
    linked.layout = fn.layout ∧ linked.pool.length = fn.pool.length := by
  induction targets generalizing fn with
  | nil => exact ⟨rfl, rfl⟩
  | cons t rest ih =>
    obtain ⟨hlayout, hlength⟩ := ih (fn.modifyBlock t (·.addPred r))
    exact ⟨hlayout, hlength.trans (length_pool_modifyBlock ..)⟩

end Func

namespace Builder

/-! ## Which operation a step writes -/

/-- The block a step writes an instruction to and the operation of the instruction, where `v` is
the value and `n` the parameter whose turn it is. -/
def Step.writes? (v : Value) (n : Nat) : Step → Option (BlockRef × Op)
  | .newValue | .newBlock | .setIncoming .. => none
  | .param r => some (r, .param v n)
  | .copy r src => some (r, .copy v src)
  | .phi r => some (r, .phi v [])
  | .call r name args => some (r, .call v (.named name) args)
  | .callVoid r name args => some (r, .call Value.nothing (.named name) args)
  | .store r mem src => some (r, .store mem src)
  | .breakpoint r => some (r, .breakpoint)
  | .ret r results => some (r, .ret results)
  | .jump r target => some (r, .jump target)
  | .branch r cond yes no => some (r, .branch cond yes no)

/-- The function after an instruction is written to a block, a merge after the merges there and
anything else at the end. -/
def write (b : Builder) (r : BlockRef) (i : Instr) : Func :=
  if i.op.isPhi then b.func.modifyBlock r fun blk => { blk with body := insertMerge i blk.body }
  else (b.emit r i).func

theorem perm_insertMerge (i : Instr) (body : List Instr) :
    (insertMerge i body).Perm (i :: body) := by
  have hmiddle : (insertMerge i body).Perm
      (i :: (body.takeWhile (·.op.isPhi) ++ body.dropWhile (·.op.isPhi))) := List.perm_middle
  rwa [List.takeWhile_append_dropWhile] at hmiddle

/-- A step that writes does nothing else to the function. -/
theorem func_step_of_writes? {b : Builder} {s : Step} {r : BlockRef} {op : Op}
    (h : s.writes? ⟨b.lastValue.num + 1⟩ b.nextParam = some (r, op)) :
    (b.step s).2.func = b.write r ⟨b.nextTag, op⟩ := by
  cases s <;> cases h <;> rfl

/-- The steps that write nothing make a value or a block, or give a merge an operand. -/
theorem step_cases (b : Builder) (s : Step) :
    (∃ r op, s.writes? ⟨b.lastValue.num + 1⟩ b.nextParam = some (r, op)) ∨
      s = .newValue ∨ s = .newBlock ∨ ∃ m p x, s = .setIncoming m p x := by
  cases s <;> simp [Step.writes?]

/-! ## Blocks that a history names -/

/-- The blocks that a step adds to or sends control to. -/
def Step.blocks : Step → List BlockRef
  | .newValue | .newBlock | .setIncoming .. => []
  | .param r | .copy r _ | .phi r | .call r _ _ | .callVoid r _ _ | .store r _ _ | .breakpoint r
  | .ret r _ => [r]
  | .jump r target => [r, target]
  | .branch r _ yes no => [r, yes, no]

theorem Step.blocks_of_writes? {s : Step} {v : Value} {n : Nat} {r : BlockRef} {op : Op}
    (h : s.writes? v n = some (r, op)) : s.blocks = r :: op.targets := by
  cases s <;> cases h <;> rfl

namespace Action

/-- The blocks that an action adds to or sends control to. -/
def blocks : Action → List BlockRef
  | .step s => s.blocks
  | .emit r i => r :: i.op.targets
  | .emitOp r op => r :: op.targets
  | .newForeign _ | .append _ | .setLabel .. | .eliminate _ => []

/-- Whether an action makes a block. -/
def makesBlock : Action → Bool
  | .step .newBlock | .newForeign _ => true
  | _ => false

end Action

/-- Where there are `n` blocks at first, each action adds to and sends control to blocks that exist
by then. -/
def Scoped : Nat → List Action → Prop
  | _, [] => True
  | n, a :: rest => (∀ r ∈ a.blocks, r < n) ∧ Scoped (if a.makesBlock then n + 1 else n) rest

instance decidableScoped : (n : Nat) → (actions : List Action) → Decidable (Scoped n actions)
  | _, [] => inferInstanceAs (Decidable True)
  | n, a :: rest =>
    have := decidableScoped (if a.makesBlock then n + 1 else n) rest
    inferInstanceAs (Decidable ((∀ r ∈ a.blocks, r < n) ∧ _))

/-! ## What is added to a block -/

section

variable {b : Builder} {r : BlockRef} {i : Instr}

@[simp] theorem length_pool_emit (b : Builder) (r : BlockRef) (i : Instr) :
    (b.emit r i).func.pool.length = b.func.pool.length := by
  unfold emit
  rw [Func.length_pool_modifyBlock]
  exact (Func.frame_foldl_addPred r _ b.func).2

@[simp] theorem layout_emit (b : Builder) (r : BlockRef) (i : Instr) :
    (b.emit r i).func.layout = b.func.layout :=
  (Func.frame_foldl_addPred r _ b.func).1

/-- **What `emit` does, block by block.** The block gets the instruction, and the targets of the
instruction record the block. -/
theorem block_emit (h : ∀ t ∈ r :: i.op.targets, t < b.func.pool.length) (s : BlockRef) :
    (b.emit r i).func.block s =
      { label := (b.func.block s).label
        body := if s = r then (b.func.block s).body ++ [i] else (b.func.block s).body
        preds := if s ∈ i.op.targets then ((b.func.block s).addPred r).preds
          else (b.func.block s).preds } := by
  rw [List.forall_mem_cons] at h
  have hr := h.1
  rw [← (Func.frame_foldl_addPred r i.op.targets b.func).2] at hr
  unfold emit
  rw [Func.block_modifyBlock hr, Func.block_foldl_addPred r _ h.2]
  by_cases ht : s ∈ i.op.targets
  · simp only [if_pos ht]
    rw [Block.addPred_eq]
    split <;> rfl
  · simp only [if_neg ht]
    split <;> rfl

/-- What is written to a block stands at its end, or after its merges. -/
theorem body_write (h : ∀ t ∈ r :: i.op.targets, t < b.func.pool.length) (s : BlockRef) :
    ((b.write r i).block s).body =
      if s = r then
        if i.op.isPhi then insertMerge i (b.func.block s).body else (b.func.block s).body ++ [i]
      else (b.func.block s).body := by
  unfold write
  split
  · rw [Func.block_modifyBlock (h r List.mem_cons_self)]
    split <;> rfl
  · rw [block_emit h]

theorem label_write (h : ∀ t ∈ r :: i.op.targets, t < b.func.pool.length) (s : BlockRef) :
    (b.write r i).label s = b.func.label s := by
  unfold write Func.label
  split
  · rw [Func.block_modifyBlock (h r List.mem_cons_self)]
    split <;> rfl
  · rw [block_emit h]

theorem layout_write (b : Builder) (r : BlockRef) (i : Instr) :
    (b.write r i).layout = b.func.layout := by
  unfold write
  split
  · rfl
  · exact layout_emit b r i

end

/-! ## The pool grows only by blocks that are made -/

@[simp] theorem length_pool_write (b : Builder) (r : BlockRef) (i : Instr) :
    (b.write r i).pool.length = b.func.pool.length := by
  unfold write
  split
  · exact Func.length_pool_modifyBlock ..
  · exact length_pool_emit b r i

theorem length_pool_step (b : Builder) (s : Step) :
    (b.step s).2.func.pool.length =
      if (Action.step s).makesBlock then b.func.pool.length + 1 else b.func.pool.length := by
  rcases b.step_cases s with ⟨r, op, hw⟩ | rfl | rfl | ⟨m, p, x, rfl⟩
  · have hmakes : (Action.step s).makesBlock = false := by cases s <;> first | rfl | cases hw
    rw [func_step_of_writes? hw, length_pool_write, hmakes]
    rfl
  · rfl
  · simp [step, newBlock, append, newForeign, Action.makesBlock]
  · show (b.setIncoming m p x).func.pool.length = b.func.pool.length
    unfold setIncoming
    cases b.merges[m]? <;> simp

theorem length_pool_act (b : Builder) (a : Action) :
    (b.act a).2.func.pool.length =
      if a.makesBlock then b.func.pool.length + 1 else b.func.pool.length := by
  cases a with
  | step s => exact b.length_pool_step s
  | newForeign label => simp [act, newForeign, Action.makesBlock]
  | append r => rfl
  | setLabel r label => exact Func.length_pool_modifyBlock ..
  | emit r i => exact length_pool_emit b r i
  | emitOp r op => exact length_pool_emit (b.newInstr op).2 r (b.newInstr op).1
  | eliminate oracle =>
    show (b.func.eliminate oracle).2.pool.length = b.func.pool.length
    rw [Func.eliminate_eq]
    cases Marking.run oracle b.func <;> simp

end Builder

end Deadwood
