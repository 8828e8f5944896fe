import Deadwood.Proofs.Diagnosis
import Deadwood.Proofs.Rearrangement

/-!
# Checks in any order

A check looks up the blocks that a merge receives from by their labels, and of several that share a
label it sees the last one only. Which one is the last is up to the check: it goes through the
incoming operands in an order that it draws anew each time. `malformed?` is the check that keeps to
the order of the lists. What other checks say of a function is what this one says of the function
with its merges shuffled.

**Theorem (`checks_silent_iff`).** All checks are silent exactly if one of them is and merges
receive from blocks of the body only. For each incoming operand there is an order that ends with it,
and the check in this order sees its block.

**Theorem (`eliminate_keeps_checks_silent`).** If all checks of a function are silent, an
elimination succeeds on it, and in whatever order it goes through what merges receive it leaves the
same. All checks of what it leaves are silent.
-/

namespace Deadwood

/-! ## Shuffles that show an operand -/

namespace Shuffle

/-- The shuffle that changes nothing. -/
def refl : Shuffle := ⟨fun _ incoming => incoming, fun _ _ => .refl _⟩

theorem apply_refl (i : Instr) : refl.apply i = i := by
  obtain ⟨tag, op⟩ := i
  cases op <;> rfl

/-- The shuffle that moves an operand to the end of what merges receive, where they do. -/
def toEnd (e : BlockRef × Operand) : Shuffle where
  order _ incoming := if e ∈ incoming then incoming.erase e ++ [e] else incoming
  perm _ incoming := by
    split
    case isTrue he =>
      exact (List.perm_append_singleton e _).trans (List.perm_cons_erase he).symm
    case isFalse => exact .refl _

variable (s : Shuffle) (i : Instr)

@[simp] theorem isTerminator_apply : (s.apply i).op.isTerminator = i.op.isTerminator := by
  obtain ⟨tag, op⟩ := i
  cases op <;> rfl

@[simp] theorem isPhi_apply : (s.apply i).op.isPhi = i.op.isPhi := by
  obtain ⟨tag, op⟩ := i
  cases op <;> rfl

@[simp] theorem targets_apply : (s.apply i).op.targets = i.op.targets := by
  obtain ⟨tag, op⟩ := i
  cases op <;> rfl

theorem perm_incoming_apply : (s.apply i).op.incoming.Perm i.op.incoming := by
  obtain ⟨tag, op⟩ := i
  cases op with
  | phi dst incoming => exact s.perm _ incoming
  | _ => exact List.Perm.refl _

variable {i}

theorem incoming_toEnd_apply {e : BlockRef × Operand} (he : e ∈ i.op.incoming) :
    ((toEnd e).apply i).op.incoming = i.op.incoming.erase e ++ [e] := by
  obtain ⟨tag, op⟩ := i
  cases op with
  | phi dst incoming => exact if_pos he
  | _ => cases he

end Shuffle

/-- The last block that a merge receives from stands for its label. -/
theorem Incoming.namesake_concat (label : BlockRef → Int) (incoming : Incoming)
    (e : BlockRef × Operand) : Incoming.namesake label (incoming ++ [e]) e.1 = e.1 := by
  simp [namesake]

/-! ## Shuffled functions -/

theorem Block.successors_shuffle (s : Shuffle) (b : Block) :
    (b.shuffle s).successors = b.successors := by
  rw [successors_eq, successors_eq, Block.shuffle, List.map_map]
  simp only [Function.comp_def, Shuffle.targets_apply]

theorem Block.Ordered.shuffle {b : Block} (h : b.Ordered) (s : Shuffle) :
    (b.shuffle s).Ordered := by
  constructor <;> rw [Block.shuffle, List.pairwise_map]
  · simpa using h.terminators
  · simpa using h.merges

namespace Func

variable {fn : Func}

theorem rearrange_refl (fn : Func) : fn.rearrange .refl fn.layout = fn := by
  have hblock : Block.shuffle .refl = id := by
    funext b
    simp [Block.shuffle, funext Shuffle.apply_refl]
  simp [rearrange, hblock]

theorem code_rearrange (fn : Func) (s : Shuffle) :
    (fn.rearrange s fn.layout).code = fn.code.map s.apply := by
  unfold code body
  rw [List.flatMap_map, List.flatMap_map, List.map_flatMap]
  refine List.flatMap_congr fun r _ => ?_
  rw [block_rearrange]
  rfl

theorem sameFlow_rearrange (fn : Func) (s : Shuffle) :
    fn.SameFlow (fn.rearrange s fn.layout) where
  layout := rfl
  label r := by
    unfold label
    rw [block_rearrange]
    rfl
  successors r _ := by rw [block_rearrange, Block.successors_shuffle]

/-- The incoming operands of merges come from blocks of the body. -/
def IncomingInside (fn : Func) : Prop := ∀ i ∈ fn.code, ∀ e ∈ i.op.incoming, e.1 ∈ fn.layout

instance (fn : Func) : Decidable fn.IncomingInside :=
  inferInstanceAs (Decidable (∀ i ∈ fn.code, ∀ e ∈ i.op.incoming, e.1 ∈ fn.layout))

theorem WellFormed.mem_incoming (h : fn.WellFormed) {b : Block} (hb : b ∈ fn.body) {i : Instr}
    (hi : i ∈ b.body) {e : BlockRef × Operand} (he : e ∈ i.op.incoming) :
    i.op.incoming.namesake fn.label e.1 ∈ fn.layout ∧
      fn.hasEdge (fn.label e.1) b.label = true := by
  obtain ⟨dst, incoming, hop, he⟩ := Op.mem_incoming_iff.mp he
  rw [hop]
  exact h.incoming b hb i hi dst incoming hop e he

/-- **A well-formed function with all that merges receive from inside is so in any order.** -/
theorem WellFormed.rearrange (h : fn.WellFormed) (hinside : fn.IncomingInside) (s : Shuffle) :
    (fn.rearrange s fn.layout).WellFormed := by
  have hflow := fn.sameFlow_rearrange s
  have hbody : ∀ c ∈ (fn.rearrange s fn.layout).body, ∃ b ∈ fn.body, c = b.shuffle s := by
    intro c hc
    obtain ⟨r, hr, rfl⟩ := List.mem_map.mp hc
    exact ⟨fn.block r, List.mem_map_of_mem hr, fn.block_rearrange s _ r⟩
  refine ⟨?_, fun c hc => ?_, fun c hc j hj dst incoming hop e he => ?_, fun j hj v hv => ?_⟩
  · have hdefs : (fn.rearrange s fn.layout).definitions = fn.definitions := by
      unfold Func.definitions
      rw [code_rearrange, List.filterMap_map]
      exact List.filterMap_congr fun i _ => s.result?_apply i
    rw [hdefs]
    exact h.definitions
  · obtain ⟨b, hb, rfl⟩ := hbody c hc
    exact (h.ordered b hb).shuffle s
  · obtain ⟨b, hb, rfl⟩ := hbody c hc
    obtain ⟨i, hi, rfl⟩ := List.mem_map.mp hj
    have hperm : incoming.Perm i.op.incoming := by
      have hshuffled := s.perm_incoming_apply i
      rwa [hop] at hshuffled
    have hlinked := (h.mem_incoming hb hi (hperm.mem_iff.mp he)).2
    -- whichever block stands for the label, the merge receives from it
    obtain ⟨d, hd, hname, -⟩ := Incoming.exists_namesake he
    rw [hname, hflow.hasEdge, hflow.label]
    exact ⟨hinside i (List.mem_flatMap.mpr ⟨b, hb, hi⟩) d (hperm.mem_iff.mp hd), hlinked⟩
  · have hcode := shuffledTo_code_rearrange (.refl fn.layout) s
    obtain ⟨i, hi, rfl⟩ := (hcode j).mp hj
    rw [hcode.undefined_iff]
    exact h.defined i hi v ((s.mem_refs_apply i).mp hv)

/-- **What all checks say.** However they go through what merges receive, all checks are silent
exactly if one of them is and merges receive from blocks of the body only. -/
theorem checks_silent_iff :
    (∀ s : Shuffle, (fn.rearrange s fn.layout).malformed? = none) ↔
      fn.malformed? = none ∧ fn.IncomingInside := by
  simp only [malformed?_eq_none_iff]
  constructor
  · intro h
    refine ⟨by simpa only [rearrange_refl] using h .refl, fun i hi e he => ?_⟩
    obtain ⟨r, hr, hi⟩ := mem_code_iff.mp hi
    -- the check that comes to `e` last looks at its block
    have hb : (fn.block r).shuffle (.toEnd e) ∈ (fn.rearrange (.toEnd e) fn.layout).body := by
      rw [← block_rearrange]
      exact List.mem_map_of_mem hr
    have hincoming := Shuffle.incoming_toEnd_apply he
    have he' : e ∈ ((Shuffle.toEnd e).apply i).op.incoming := by simp [hincoming]
    have hseen := (h (.toEnd e)).mem_incoming hb (List.mem_map_of_mem hi) he'
    rw [hincoming, Incoming.namesake_concat] at hseen
    exact hseen.1
  · rintro ⟨hwell, hinside⟩ s
    exact hwell.rearrange hinside s

/-- A merge receives from the entry and from a block outside that has the label of the entry. -/
def lookalike : Func where
  name := "lookalike"
  pool := [
    ⟨0, [⟨0, .jump 1⟩], []⟩,
    ⟨1, [⟨1, .phi ⟨1⟩ [(2, .lit 5), (0, .lit 1)]⟩, ⟨2, .ret [.ref ⟨1⟩]⟩], [0]⟩,
    ⟨0, [], []⟩]
  layout := [0, 1]

-- One check is silent, and the one that comes to the block outside last is not.
example : lookalike.malformed? = none ∧ ¬ lookalike.IncomingInside ∧
    (lookalike.rearrange (.toEnd (2, .lit 5)) [0, 1]).malformed?.isSome = true := by
  exact ⟨by cbv, by decide, by cbv⟩

/-- **If all checks are silent before an elimination, all are after it.** Checks and eliminations
each go through what merges receive in orders of their own. Let the function consist of known
instructions, and let no check find anything wrong with it. Then an elimination succeeds in every
order, what it leaves is the same up to the order, and no check finds anything wrong with it. -/
theorem eliminate_keeps_checks_silent (hknown : ∀ i ∈ fn.code, i.op.isKnown = true)
    (h : ∀ s : Shuffle, (fn.rearrange s fn.layout).malformed? = none) (rule : Callee → Bool) :
    ∃ after : Func, ∀ s : Shuffle,
      (fn.rearrange s fn.layout).eliminate (.ofRule rule) =
        (.ok (), after.rearrange s after.layout) ∧
      (after.rearrange s after.layout).malformed? = none := by
  obtain ⟨hsilent, hinside⟩ := checks_silent_iff.mp h
  obtain ⟨keep, helim, hkeep, hterm⟩ := exists_sweep_of_wellFormed hsilent hknown rule
  have hwell : fn.WellFormed := malformed?_eq_none_iff.mp hsilent
  have hsingle : SingleDefs fn.code :=
    fun i hi j hj v => eq_of_result?_eq hwell.definitions hi hj
  have hafter : ∀ s : Shuffle,
      ((fn.sweep keep).rearrange s (fn.sweep keep).layout).malformed? = none := by
    refine checks_silent_iff.mpr ⟨malformed?_eq_none_iff.mpr (hwell.sweep hkeep hterm), ?_⟩
    intro i hi e he
    rw [code_sweep] at hi
    rw [layout_sweep]
    exact hinside i (List.mem_of_mem_filter hi) e he
  refine ⟨fn.sweep keep, fun s => ⟨?_, hafter s⟩⟩
  rw [layout_sweep]
  exact eliminate_rearrange_of_ok hknown hsingle s (.refl fn.layout) helim

end Func

end Deadwood
