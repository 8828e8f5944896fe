import Deadwood.Proofs.Staging

/-!
# Rearranged functions

A **shuffle** lists the operands that merges receive in another order, and leaves all else of an
instruction as it is. To rearrange a function is to shuffle its instructions and to lay out its
blocks in another order.

**Theorem (`eliminate_rearrange`).** Where every value has at most one instruction that defines it,
an elimination does the same with a function and with any rearrangement of it. It fails on both or
on neither, and what it leaves of the rearranged function is the rearrangement of what it leaves of
the function.

The two markings have little in common step by step. The first phase finds the roots in different
orders, and values come off the worklists in orders that differ from then on. But a marking that
ends has marked what is necessary, and that is a set. It is defined by membership in the code alone
once the definition that counts for a value is the only one there is (`SingleDefs.lastDefines_iff`),
so it goes along with a shuffle (`necessary_apply_iff`).
-/

namespace Deadwood

/-! ## Shuffles -/

/-- Another order for the operands that each merge receives. -/
structure Shuffle where
  order : Instr → Incoming → Incoming
  perm : ∀ i incoming, (order i incoming).Perm incoming

namespace Shuffle

/-- The instruction with its incoming operands in the other order. -/
def apply (s : Shuffle) (i : Instr) : Instr :=
  match i.op with
  | .phi dst incoming => ⟨i.tag, .phi dst (s.order i incoming)⟩
  | _ => i

variable (s : Shuffle) (i : Instr) (oracle : Oracle)

@[simp] theorem result?_apply : (s.apply i).op.result? = i.op.result? := by
  obtain ⟨tag, op⟩ := i
  cases op <;> rfl

@[simp] theorem isRoot_apply : (s.apply i).op.isRoot oracle = i.op.isRoot oracle := by
  obtain ⟨tag, op⟩ := i
  cases op <;> rfl

@[simp] theorem isKnown_apply : (s.apply i).op.isKnown = i.op.isKnown := by
  obtain ⟨tag, op⟩ := i
  cases op <;> rfl

/-- A shuffled instruction refers to the same values, maybe in another order. -/
theorem perm_refs_apply : (s.apply i).op.refs.Perm i.op.refs := by
  obtain ⟨tag, op⟩ := i
  cases op with
  | phi dst incoming =>
    have hperm := s.perm ⟨tag, .phi dst incoming⟩ incoming
    exact (hperm.map (·.2)).filterMap Operand.value?
  | _ => exact List.Perm.refl _

@[simp] theorem mem_refs_apply {v : Value} : v ∈ (s.apply i).op.refs ↔ v ∈ i.op.refs :=
  (s.perm_refs_apply i).mem_iff

/-- What has an effect of its own is no merge, and is left as it is. -/
theorem apply_of_isRoot {i : Instr} (h : i.op.isRoot oracle = true) : s.apply i = i := by
  obtain ⟨tag, op⟩ := i
  cases op with
  | phi => cases h
  | _ => rfl

end Shuffle

/-! ## Code with single definitions -/

/-- Every value has at most one instruction that defines it, wherever and however often this
stands. -/
def SingleDefs (code : List Instr) : Prop :=
  ∀ i ∈ code, ∀ j ∈ code, ∀ v, i.op.result? = some v → j.op.result? = some v → i = j

variable {s : Shuffle} {oracle : Oracle} {code shuffled : List Instr}

/-- Where definitions are single, the one that counts is the one there is. -/
theorem SingleDefs.lastDefines_iff (h : SingleDefs code) {v : Value} {i : Instr} :
    LastDefines code v i ↔ i ∈ code ∧ i.op.result? = some v := by
  refine ⟨fun hd => ⟨hd.mem, hd.result⟩, fun hi => ?_⟩
  exact lastDefines_of_unique hi.1 hi.2 fun j hj hv => h j hj i hi.1 v hv hi.2

/-- The code consists of the same instructions after a shuffle, in whatever order. -/
def ShuffledTo (s : Shuffle) (code shuffled : List Instr) : Prop :=
  ∀ j, j ∈ shuffled ↔ ∃ i ∈ code, s.apply i = j

namespace ShuffledTo

variable (h : ShuffledTo s code shuffled)
include h

theorem apply_mem {i : Instr} (hi : i ∈ code) : s.apply i ∈ shuffled := (h _).mpr ⟨i, hi, rfl⟩

theorem undefined_iff {v : Value} : Undefined shuffled v ↔ Undefined code v := by
  constructor
  · intro hu i hi hv
    exact hu (s.apply i) (h.apply_mem hi) (by simpa using hv)
  · intro hu j hj hv
    obtain ⟨i, hi, rfl⟩ := (h j).mp hj
    exact hu i hi (by simpa using hv)

variable (hsingle : SingleDefs code)
include hsingle

theorem singleDefs : SingleDefs shuffled := by
  intro i' hi' j' hj' v hiv hjv
  obtain ⟨i, hi, rfl⟩ := (h i').mp hi'
  obtain ⟨j, hj, rfl⟩ := (h j').mp hj'
  rw [Shuffle.result?_apply] at hiv hjv
  rw [hsingle i hi j hj v hiv hjv]

theorem necessary_apply {i : Instr} (hi : Necessary oracle code i) :
    Necessary oracle shuffled (s.apply i) := by
  induction hi with
  | root hmem hroot => exact .root (h.apply_mem hmem) (by simpa using hroot)
  | operand _ hv hd ih =>
    have hdef := (h.singleDefs hsingle).lastDefines_iff.mpr
      ⟨h.apply_mem hd.mem, (s.result?_apply _).trans hd.result⟩
    exact .operand ih (by simpa using hv) hdef

theorem exists_of_necessary {j : Instr} (hj : Necessary oracle shuffled j) :
    ∃ i, Necessary oracle code i ∧ s.apply i = j := by
  induction hj with
  | root hmem hroot =>
    obtain ⟨i, hi, rfl⟩ := (h _).mp hmem
    exact ⟨i, .root hi (by simpa using hroot), rfl⟩
  | @operand j k v _ hv hd ih =>
    obtain ⟨i, hi, rfl⟩ := ih
    obtain ⟨l, hl, rfl⟩ := (h k).mp hd.mem
    have hdef : LastDefines code v l :=
      hsingle.lastDefines_iff.mpr ⟨hl, (s.result?_apply l).symm.trans hd.result⟩
    exact ⟨l, .operand hi (by simpa using hv) hdef, rfl⟩

/-- **Necessity goes along with a shuffle.** -/
theorem necessary_apply_iff {i : Instr} (hi : i ∈ code) :
    Necessary oracle shuffled (s.apply i) ↔ Necessary oracle code i := by
  refine ⟨fun hnec => ?_, h.necessary_apply hsingle⟩
  obtain ⟨k, hk, hki⟩ := h.exists_of_necessary hsingle hnec
  -- A shuffle might make two merges equal, but then only one of them defines a value.
  have hsame : k = i := by
    cases hk with
    | root _ hroot =>
      have hroot' : i.op.isRoot oracle = true := by
        rw [← s.isRoot_apply, ← hki, s.isRoot_apply, hroot]
      rwa [s.apply_of_isRoot oracle hroot, s.apply_of_isRoot oracle hroot'] at hki
    | operand _ _ hd =>
      have hresult : i.op.result? = k.op.result? := by
        rw [← s.result?_apply, ← hki, s.result?_apply]
      exact hsingle k hd.mem i hi _ hd.result (hresult.trans hd.result)
  rwa [← hsame]

theorem resolved_iff : Resolved oracle shuffled ↔ Resolved oracle code := by
  constructor
  · intro hres i hi v hv hu
    exact hres (s.apply i) (h.necessary_apply hsingle hi) v (by simpa using hv)
      (h.undefined_iff.mpr hu)
  · intro hres j hj v hv hu
    obtain ⟨i, hi, rfl⟩ := h.exists_of_necessary hsingle hj
    exact hres i hi v (by simpa using hv) (h.undefined_iff.mp hu)

end ShuffledTo

/-! ## Rearranged functions -/

/-- The block with its instructions shuffled. -/
def Block.shuffle (s : Shuffle) (b : Block) : Block := { b with body := b.body.map s.apply }

namespace Func

/-- The function with its instructions shuffled and its blocks in the given order. -/
def rearrange (fn : Func) (s : Shuffle) (layout : List BlockRef) : Func :=
  { fn with pool := fn.pool.map (Block.shuffle s), layout }

theorem block_rearrange (fn : Func) (s : Shuffle) (layout : List BlockRef) (r : BlockRef) :
    (fn.rearrange s layout).block r = (fn.block r).shuffle s :=
  List.getD_map fn.pool default (Block.shuffle s)

variable {fn : Func} {layout : List BlockRef}

theorem shuffledTo_code_rearrange (hlayout : layout.Perm fn.layout) (s : Shuffle) :
    ShuffledTo s fn.code (fn.rearrange s layout).code := by
  intro j
  rw [mem_code_iff]
  constructor
  · intro hj
    obtain ⟨r, hr, hj⟩ := hj
    rw [block_rearrange] at hj
    obtain ⟨i, hi, rfl⟩ := List.mem_map.mp hj
    exact ⟨i, mem_code_iff.mpr ⟨r, hlayout.mem_iff.mp hr, hi⟩, rfl⟩
  · intro hj
    obtain ⟨i, hi, rfl⟩ := hj
    obtain ⟨r, hr, hi⟩ := mem_code_iff.mp hi
    refine ⟨r, hlayout.mem_iff.mpr hr, ?_⟩
    rw [block_rearrange]
    exact List.mem_map_of_mem hi

/-- Sweeping and rearranging can change places if the two sweeps keep the same instructions. -/
theorem sweep_rearrange (hlayout : layout.Perm fn.layout) {keep keep' : Instr → Bool}
    (h : ∀ i ∈ fn.code, keep' (s.apply i) = keep i) :
    (fn.rearrange s layout).sweep keep' = (fn.sweep keep).rearrange s layout := by
  refine ext_block (by simp [rearrange]) (by simp [rearrange]) (by simp [rearrange]) fun r => ?_
  rw [block_sweep, block_rearrange, block_rearrange, block_sweep]
  show (if r ∈ layout then _ else _) = _
  by_cases hr : r ∈ fn.layout
  · rw [if_pos hr, if_pos (hlayout.mem_iff.mpr hr)]
    have hbody : ((fn.block r).body.map s.apply).filter keep' =
        ((fn.block r).body.filter keep).map s.apply := by
      rw [List.filter_map]
      refine congrArg (List.map s.apply) (List.filter_congr fun i hi => ?_)
      exact h i (mem_code_iff.mpr ⟨r, hr, hi⟩)
    simp only [Block.shuffle, Block.sweep, hbody]
  · rw [if_neg hr, if_neg (fun hr' => hr (hlayout.mem_iff.mp hr'))]

/-- Where no instruction has a fault, an elimination fails exactly on unresolved references, and
names one. -/
theorem eliminate_fails_iff (hfault : ∀ i ∈ fn.code, i.op.fault? oracle = none) :
    ((∃ f, (fn.eliminate oracle).1 = .error f) ↔ ¬ Resolved oracle fn.code) ∧
      ∀ f, (fn.eliminate oracle).1 = .error f → ∃ v, f = .violation (.undefined fn.name v) := by
  rcases eliminate_of_no_fault hfault with ⟨hok, hres⟩ | ⟨v, hv, hu, i, hi, hvi⟩
  · rw [hok]
    simp [hres]
  · have hnot : ¬ Resolved oracle fn.code := fun hres => hres i hi v hvi hu
    rw [hv]
    simp [hnot]

theorem isKnown_rearrange (hlayout : layout.Perm fn.layout) (s : Shuffle)
    (hknown : ∀ i ∈ fn.code, i.op.isKnown = true) :
    ∀ j ∈ (fn.rearrange s layout).code, j.op.isKnown = true := by
  intro j hj
  obtain ⟨i, hi, rfl⟩ := (shuffledTo_code_rearrange hlayout s j).mp hj
  exact (s.isKnown_apply i).trans (hknown i hi)

/-- Where an elimination succeeds, it goes along with a rearrangement. -/
theorem eliminate_rearrange_of_ok (hknown : ∀ i ∈ fn.code, i.op.isKnown = true)
    (hsingle : SingleDefs fn.code) {rule : Callee → Bool} (s : Shuffle)
    (hlayout : layout.Perm fn.layout) {after : Func}
    (h : fn.eliminate (.ofRule rule) = (.ok (), after)) :
    (fn.rearrange s layout).eliminate (.ofRule rule) = (.ok (), after.rearrange s layout) := by
  have hcode := shuffledTo_code_rearrange hlayout s
  obtain ⟨-, hres, keep, hkeep, rfl⟩ := eliminate_eq_ok h
  have hok : ((fn.rearrange s layout).eliminate (.ofRule rule)).1 = .ok () :=
    eliminate_of_resolved
      (fun j hj => Op.fault?_ofRule (isKnown_rearrange hlayout s hknown j hj) rule)
      ((hcode.resolved_iff hsingle).mpr hres)
  obtain ⟨keep', hkeep', hafter⟩ := eliminate_of_ok hok
  refine Prod.ext hok (hafter.trans (sweep_rearrange hlayout fun i hi => ?_))
  rw [Bool.eq_iff_iff, hkeep, hkeep', hcode.necessary_apply_iff hsingle hi]

/-- **An elimination does not depend on the order of blocks and incoming operands.** Let the
function consist of known instructions, with at most one that defines a given value. Shuffle what its
merges receive, and lay out its blocks in another order. Then an elimination fails on the result
exactly if it fails on the function, in both cases because a value has no definition. If it succeeds,
it leaves in every block the same instructions in the same order, up to the shuffle. -/
theorem eliminate_rearrange (hknown : ∀ i ∈ fn.code, i.op.isKnown = true)
    (hsingle : SingleDefs fn.code) (rule : Callee → Bool) (s : Shuffle)
    (hlayout : layout.Perm fn.layout) :
    ((∃ f, (fn.eliminate (.ofRule rule)).1 = .error f) ↔
      ∃ f, ((fn.rearrange s layout).eliminate (.ofRule rule)).1 = .error f) ∧
    (∀ f, (fn.eliminate (.ofRule rule)).1 = .error f →
      ∃ v, f = .violation (.undefined fn.name v)) ∧
    (∀ f, ((fn.rearrange s layout).eliminate (.ofRule rule)).1 = .error f →
      ∃ v, f = .violation (.undefined fn.name v)) ∧
    ∀ after, fn.eliminate (.ofRule rule) = (.ok (), after) →
      (fn.rearrange s layout).eliminate (.ofRule rule) = (.ok (), after.rearrange s layout) := by
  obtain ⟨hfails, hwhy⟩ := eliminate_fails_iff fun i hi => Op.fault?_ofRule (hknown i hi) rule
  obtain ⟨hfails', hwhy'⟩ := eliminate_fails_iff fun j hj =>
    Op.fault?_ofRule (isKnown_rearrange hlayout s hknown j hj) rule
  refine ⟨?_, hwhy, hwhy', fun after h => eliminate_rearrange_of_ok hknown hsingle s hlayout h⟩
  rw [hfails, hfails', (shuffledTo_code_rearrange hlayout s).resolved_iff hsingle]

/-- Two ways that meet in a block with a merge that is used and one that is not. -/
def crossing : Func where
  name := "crossing"
  pool := [
    ⟨0, [⟨0, .param ⟨1⟩ 0⟩, ⟨1, .branch (.ref ⟨1⟩) 1 2⟩], []⟩,
    ⟨1, [⟨2, .copy ⟨2⟩ (.lit 1)⟩, ⟨3, .jump 3⟩], [0]⟩,
    ⟨2, [⟨4, .call ⟨3⟩ (.named "len") [.ref ⟨1⟩]⟩, ⟨5, .jump 3⟩], [0]⟩,
    ⟨3, [⟨6, .phi ⟨4⟩ [(1, .ref ⟨2⟩), (2, .ref ⟨3⟩)]⟩, ⟨7, .phi ⟨5⟩ [(1, .ref ⟨5⟩), (2, .ref ⟨4⟩)]⟩,
      ⟨8, .ret [.ref ⟨4⟩]⟩], [1, 2]⟩]
  layout := [0, 1, 2, 3]

/-- The crossing without the merge that is not used. -/
def crossingSwept : Func where
  name := "crossing"
  pool := [
    ⟨0, [⟨0, .param ⟨1⟩ 0⟩, ⟨1, .branch (.ref ⟨1⟩) 1 2⟩], []⟩,
    ⟨1, [⟨2, .copy ⟨2⟩ (.lit 1)⟩, ⟨3, .jump 3⟩], [0]⟩,
    ⟨2, [⟨4, .call ⟨3⟩ (.named "len") [.ref ⟨1⟩]⟩, ⟨5, .jump 3⟩], [0]⟩,
    ⟨3, [⟨6, .phi ⟨4⟩ [(1, .ref ⟨2⟩), (2, .ref ⟨3⟩)]⟩, ⟨8, .ret [.ref ⟨4⟩]⟩], [1, 2]⟩]
  layout := [0, 1, 2, 3]

/-- A merge that receives from both sides what nothing defines. -/
def pitfall : Func where
  name := "pitfall"
  pool := [
    ⟨0, [⟨0, .branch (.lit 1) 1 1⟩], []⟩,
    ⟨1, [⟨1, .phi ⟨1⟩ [(0, .ref ⟨7⟩), (2, .ref ⟨8⟩)]⟩, ⟨2, .ret [.ref ⟨1⟩]⟩], [0]⟩,
    ⟨2, [⟨3, .jump 1⟩], []⟩]
  layout := [0, 1, 2]

/-- The shuffle that turns the order of incoming operands round. -/
def turned : Shuffle := ⟨fun _ incoming => incoming.reverse, fun _ => List.reverse_perm⟩

theorem crossing_rearranged :
    (crossing.eliminate (ConstSet.ofList ["len"]).oracle = (.ok (), crossingSwept) ∧
      (crossing.rearrange turned [3, 1, 0, 2]).eliminate (ConstSet.ofList ["len"]).oracle =
        (.ok (), crossingSwept.rearrange turned [3, 1, 0, 2])) ∧
    (pitfall.eliminate .never).1 = .error (.violation (.undefined "pitfall" ⟨8⟩)) ∧
      ∃ v, ((pitfall.rearrange turned [2, 1, 0]).eliminate .never).1 =
        .error (.violation (.undefined "pitfall" v)) := by
  have hswept : crossing.eliminate (ConstSet.ofList ["len"]).oracle = (.ok (), crossingSwept) := by
    cbv
  have hundef : (pitfall.eliminate .never).1 = .error (.violation (.undefined "pitfall" ⟨8⟩)) := by
    cbv
  have hcrossing := eliminate_rearrange (by decide)
    (fun i hi j hj v => eq_of_result?_eq (by decide) hi hj)
    (ConstSet.ofList ["len"]).contains turned
    (show [3, 1, 0, 2].Perm crossing.layout by decide)
  have hpitfall := eliminate_rearrange (by decide)
    (fun i hi j hj v => eq_of_result?_eq (by decide) hi hj) (fun _ => false) turned
    (show [2, 1, 0].Perm pitfall.layout by decide)
  refine ⟨⟨hswept, hcrossing.2.2.2 _ hswept⟩, hundef, ?_⟩
  obtain ⟨f, hf⟩ := hpitfall.1.mp ⟨_, hundef⟩
  obtain ⟨v, rfl⟩ := hpitfall.2.2.1 f hf
  exact ⟨v, hf⟩

end Func

end Deadwood
