import Deadwood.Proofs.Closure
import Deadwood.Proofs.Elimination
import Deadwood.Proofs.WellFormed

/-!
# An elimination keeps a function well-formed

**Theorem (`eliminate_preserves_wellFormed`).** On a well-formed function of known instructions an
elimination succeeds. What it leaves is well-formed, every block ends as it did, and the control
flow graph and the unreachable blocks are the same.

A sweep takes instructions out of the middle of blocks, so two things might go wrong. The last
instruction of a block might go, and an earlier one that sends control elsewhere would then take
effect. And a value that is still referred to might lose its definition. The first cannot happen
because in a well-formed function there is no earlier one (`Block.Ordered.terminator?_eq`), the
second because the definitions that a necessary instruction refers to are necessary themselves
(`WellFormed.sweep`). With the ends of blocks the control flow graph stays what it was
(`SameFlow`), and so do the blocks that merges may receive from.
-/

namespace Deadwood

/-! ## The ends of blocks -/

namespace Block

variable {b : Block} {keep : Instr → Bool}

theorem Ordered.sweep (h : b.Ordered) (keep : Instr → Bool) : (b.sweep keep).Ordered :=
  ⟨h.terminators.filter keep, h.merges.filter keep⟩

/-- In an ordered block the only instruction that can end it is the last one. -/
theorem Ordered.terminator?_eq (h : b.Ordered) :
    b.terminator? = b.body.find? (·.op.isTerminator) := by
  rcases List.eq_nil_or_concat' b.body with hnil | ⟨init, i, hbody⟩
  · simp [terminator?, hnil]
  · have hinit : ∀ j ∈ init, j.op.isTerminator = false := by
      intro j hj
      have hpair := h.terminators
      rw [hbody, List.pairwise_append] at hpair
      exact hpair.2.2 j hj i List.mem_cons_self
    have hnone : init.find? (·.op.isTerminator) = none := by
      simpa [List.find?_eq_none] using hinit
    rw [terminator?, hbody, List.find?_append, hnone]
    cases hi : i.op.isTerminator <;> simp [hi]

/-- A sweep that spares the instructions that end blocks leaves the end of an ordered block. -/
theorem Ordered.terminator?_sweep (h : b.Ordered)
    (hkeep : ∀ i ∈ b.body, i.op.isTerminator = true → keep i = true) :
    (b.sweep keep).terminator? = b.terminator? := by
  rw [h.terminator?_eq, (h.sweep keep).terminator?_eq, body_sweep, List.find?_filter]
  refine List.find?_congr fun i hi => ?_
  cases hterm : i.op.isTerminator with
  | false => simp
  | true => simp [hkeep i hi hterm]

theorem successors_congr {c : Block} (h : c.terminator? = b.terminator?) :
    c.successors = b.successors := by
  unfold successors
  rw [h]

theorem mem_successors_iff {s : BlockRef} :
    s ∈ b.successors ↔
      ∃ i, b.body.getLast? = some i ∧ i.op.isTerminator = true ∧ s ∈ i.op.targets := by
  unfold successors terminator?
  cases hlast : b.body.getLast? with
  | none => simp
  | some i => cases hi : i.op.isTerminator <;> simp [Option.filter, hi]

/-- Where a block sends control is where its last instruction does. -/
theorem successors_eq (b : Block) :
    b.successors = (b.body.map (·.op.targets)).getLast?.getD [] := by
  unfold successors terminator?
  rw [List.getLast?_map]
  cases b.body.getLast? with
  | none => rfl
  | some i =>
    rw [Option.filter_some]
    by_cases hend : i.op.isTerminator = true
    · rw [if_pos hend]
      rfl
    · have hnone : i.op.targets = [] := by
        cases hop : i.op <;> simp_all [Op.isTerminator, Op.targets]
      rw [if_neg hend, Option.map_some, Option.getD_some, hnone]

end Block

/-! ## Functions with the same control flow -/

namespace Func

/-- The functions have the same blocks in the same order, under the same labels, and their blocks
send control to the same places. -/
structure SameFlow (f g : Func) : Prop where
  layout : g.layout = f.layout
  label : ∀ r, g.label r = f.label r
  successors : ∀ r ∈ f.layout, (g.block r).successors = (f.block r).successors

namespace SameFlow

variable {f g : Func} (h : f.SameFlow g)
include h

theorem edges : g.edges = f.edges := by
  unfold Func.edges body
  rw [h.layout, List.flatMap_map, List.flatMap_map]
  refine List.flatMap_congr fun r hr => ?_
  have hlabel : (g.block r).label = (f.block r).label := h.label r
  simp only [h.successors r hr, hlabel, h.label]

theorem graph : g.graph = f.graph := by
  unfold Func.graph
  rw [h.edges]

theorem hasEdge (u v : Int) : g.hasEdge u v = f.hasEdge u v := by
  unfold Func.hasEdge
  rw [h.graph]

theorem reached : g.reached = f.reached := by
  unfold Func.reached entry? body
  rw [h.layout, h.graph]
  cases f.layout with
  | nil => rfl
  | cons r rest =>
    have hlabel : (g.block r).label = (f.block r).label := h.label r
    simp [hlabel]

theorem unreachable : g.unreachable = f.unreachable := by
  unfold Func.unreachable
  simp only [h.layout, h.reached, h.label]

end SameFlow

/-! ## Sweeps -/

variable {fn : Func} {keep : Instr → Bool}

theorem label_sweep (fn : Func) (keep : Instr → Bool) (r : BlockRef) :
    (fn.sweep keep).label r = fn.label r := by
  unfold label
  rw [block_sweep]
  split <;> rfl

/-- A sweep that spares the instructions that end blocks leaves all blocks of a well-formed
function with the same end. -/
theorem WellFormed.terminator?_sweep (h : fn.WellFormed)
    (hkeep : ∀ i ∈ fn.code, i.op.isTerminator = true → keep i = true) (r : BlockRef) :
    ((fn.sweep keep).block r).terminator? = (fn.block r).terminator? := by
  rw [block_sweep]
  split
  case isTrue hr =>
    refine (h.ordered _ (List.mem_map_of_mem hr)).terminator?_sweep fun i hi => hkeep i ?_
    exact mem_code_iff.mpr ⟨r, hr, hi⟩
  case isFalse => rfl

theorem WellFormed.sameFlow_sweep (h : fn.WellFormed)
    (hkeep : ∀ i ∈ fn.code, i.op.isTerminator = true → keep i = true) :
    fn.SameFlow (fn.sweep keep) where
  layout := layout_sweep fn keep
  label := label_sweep fn keep
  successors r _ := Block.successors_congr (h.terminator?_sweep hkeep r)

/-- **A sweep that keeps the necessary instructions keeps a function well-formed.** -/
theorem WellFormed.sweep (h : fn.WellFormed) {oracle : Oracle}
    (hkeep : ∀ i, keep i = true ↔ Necessary oracle fn.code i)
    (hterm : ∀ i ∈ fn.code, i.op.isTerminator = true → keep i = true) :
    (fn.sweep keep).WellFormed := by
  have hflow := h.sameFlow_sweep hterm
  -- a block of the result is a swept block of the function
  have hbody : ∀ c ∈ (fn.sweep keep).body, ∃ b ∈ fn.body, c = b.sweep keep := by
    intro c hc
    obtain ⟨r, hr, rfl⟩ := List.mem_map.mp hc
    rw [layout_sweep] at hr
    exact ⟨fn.block r, List.mem_map_of_mem hr, by rw [block_sweep, if_pos hr]⟩
  refine ⟨?_, fun c hc => ?_, fun c hc i hi dst incoming hop e he => ?_, fun i hi v hv => ?_⟩
  · unfold Func.definitions
    rw [code_sweep]
    exact h.definitions.sublist (List.filter_sublist.filterMap _)
  · obtain ⟨b, hb, rfl⟩ := hbody c hc
    exact (h.ordered b hb).sweep keep
  · obtain ⟨b, hb, rfl⟩ := hbody c hc
    have hin := h.incoming b hb i (List.mem_of_mem_filter hi) dst incoming hop e he
    rwa [hflow.hasEdge, funext hflow.label, hflow.layout]
  · rw [code_sweep] at hi ⊢
    have hclosed : Closed fn.code keep :=
      closed_of_necessary hkeep fun j hj => h.defined j hj.mem
    exact hclosed.defined_filter hi hv

end Func

/-! ## Elimination -/

theorem Op.isRoot_of_isTerminator {op : Op} (h : op.isTerminator = true) (oracle : Oracle) :
    op.isRoot oracle = true := by
  cases op with
  | ret | branch | jump => rfl
  | _ => cases h

namespace Func

/-- A well-formed function of known instructions passes every elimination with an oracle that does
not fail. -/
theorem eliminate_of_wellFormed {fn : Func} (h : fn.malformed? = none)
    (hknown : ∀ i ∈ fn.code, i.op.isKnown = true) (rule : Callee → Bool) :
    (fn.eliminate (.ofRule rule)).1 = .ok () :=
  eliminate_of_resolved (fun i hi => Op.fault?_ofRule (hknown i hi) rule)
    fun _ hi _ hv => defined_of_wellFormed h hi.mem hv

/-- An elimination of a well-formed function of known instructions is a sweep. It keeps the
necessary instructions, and with them those that end blocks. -/
theorem exists_sweep_of_wellFormed {fn : Func} (h : fn.malformed? = none)
    (hknown : ∀ i ∈ fn.code, i.op.isKnown = true) (rule : Callee → Bool) :
    ∃ keep, fn.eliminate (.ofRule rule) = (.ok (), fn.sweep keep) ∧
      (∀ i, keep i = true ↔ Necessary (.ofRule rule) fn.code i) ∧
      ∀ i ∈ fn.code, i.op.isTerminator = true → keep i = true := by
  have hok := eliminate_of_wellFormed h hknown rule
  obtain ⟨keep, hkeep, hafter⟩ := eliminate_of_ok hok
  refine ⟨keep, Prod.ext hok hafter, hkeep, fun i hi hend => ?_⟩
  exact (hkeep i).mpr (.root hi (Op.isRoot_of_isTerminator hend _))

/-- **An elimination keeps a function well-formed.** On a well-formed function of known instructions
it succeeds. Its result is well-formed, each block of the pool ends as it did and sends control to
the same blocks, and the edges and the unreachable blocks are the same.

Before and after, this is about a check that goes through what merges receive in the order of the
lists. `eliminate_keeps_checks_silent` is about all checks, whatever orders they draw. -/
theorem eliminate_preserves_wellFormed {fn : Func} (h : fn.malformed? = none)
    (hknown : ∀ i ∈ fn.code, i.op.isKnown = true) (rule : Callee → Bool) :
    ∃ after, fn.eliminate (.ofRule rule) = (.ok (), after) ∧ after.malformed? = none ∧
      (∀ r, (after.block r).terminator? = (fn.block r).terminator? ∧
        (after.block r).successors = (fn.block r).successors) ∧
      (∀ u v, after.hasEdge u v = fn.hasEdge u v) ∧ after.unreachable = fn.unreachable := by
  obtain ⟨keep, hafter, hkeep, hterm⟩ := exists_sweep_of_wellFormed h hknown rule
  have hwell : fn.WellFormed := malformed?_eq_none_iff.mp h
  have hflow := hwell.sameFlow_sweep hterm
  refine ⟨fn.sweep keep, hafter, ?_, fun r => ?_, hflow.hasEdge, hflow.unreachable⟩
  · exact malformed?_eq_none_iff.mpr (hwell.sweep hkeep hterm)
  · have hend := hwell.terminator?_sweep hterm r
    exact ⟨hend, Block.successors_congr hend⟩

/-- A loop with a merge that only a copy in the loop refers to, and a block that control cannot
reach. -/
def detour : Func where
  name := "detour"
  pool := [
    ⟨10, [⟨0, .param ⟨1⟩ 0⟩, ⟨1, .call ⟨2⟩ (.named "len") [.ref ⟨1⟩]⟩, ⟨2, .jump 1⟩], []⟩,
    ⟨20, [⟨3, .phi ⟨3⟩ [(0, .lit 0), (1, .ref ⟨4⟩)]⟩, ⟨4, .copy ⟨4⟩ (.ref ⟨3⟩)⟩,
      ⟨5, .branch (.ref ⟨1⟩) 1 2⟩], [0, 1]⟩,
    ⟨30, [⟨6, .ret [.ref ⟨1⟩]⟩], [1]⟩,
    ⟨40, [⟨7, .copy ⟨5⟩ (.ref ⟨2⟩)⟩, ⟨8, .jump 2⟩], []⟩]
  layout := [0, 1, 2, 3]

theorem detour_stays_wellFormed :
    detour.malformed? = none ∧ (∀ i ∈ detour.code, i.op.isKnown = true) ∧
      ∃ after, detour.eliminate (ConstSet.ofList ["len"]).oracle = (.ok (), after) ∧
        after.malformed? = none ∧
        (∀ r, (after.block r).terminator? = (detour.block r).terminator? ∧
          (after.block r).successors = (detour.block r).successors) ∧
        (∀ u v, after.hasEdge u v = detour.hasEdge u v) ∧ after.unreachable = [3] := by
  have hwell : detour.malformed? = none := by cbv
  have hknown : ∀ i ∈ detour.code, i.op.isKnown = true := by decide
  have hlost : detour.unreachable = [3] := by cbv
  have hkept := eliminate_preserves_wellFormed hwell hknown (ConstSet.ofList ["len"]).contains
  rw [hlost] at hkept
  exact ⟨hwell, hknown, hkept⟩

end Func

end Deadwood
