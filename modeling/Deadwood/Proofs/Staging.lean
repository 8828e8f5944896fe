import Deadwood.Proofs.Closure
import Deadwood.Proofs.Elimination
import Deadwood.Proofs.WellFormed

/-!
# Eliminations one after the other

**Theorem (`eliminate_staged`).** Let one oracle know every const callee that another one knows. An
elimination with the less knowing oracle followed by one with the more knowing oracle leaves what
the latter alone leaves. In the other order the second elimination changes nothing. In particular
an elimination that is done twice changes nothing the second time.

The second elimination works on a smaller function and looks up definitions there. What the first
one leaves is a closed sweep of the code, so what is necessary in it is what was necessary before
(`Closed.necessary_filter_iff`). It remains to compare two sweeps in a row with a single one, block
by block (`sweep_sweep`).
-/

namespace Deadwood.Func

variable {fn : Func} {oracle narrow wide : Oracle} {keep : Instr → Bool}

/-! ## Sweeps one after the other -/

/-- Functions with the same name, layout and blocks are the same. -/
theorem ext_block {f g : Func} (hname : f.name = g.name) (hlayout : f.layout = g.layout)
    (hlength : f.pool.length = g.pool.length) (hblock : ∀ r, f.block r = g.block r) : f = g := by
  obtain ⟨name, pool, layout⟩ := f
  obtain ⟨name', pool', layout'⟩ := g
  have hpool : pool = pool' := by
    refine List.ext_getElem hlength fun r hr hr' => ?_
    simpa [block, hr, hr'] using hblock r
  simp only at hname hlayout
  rw [hname, hlayout, hpool]

theorem sweep_sweep {first second both : Instr → Bool}
    (h : ∀ i ∈ fn.code, (first i && second i) = both i) :
    (fn.sweep first).sweep second = fn.sweep both := by
  refine ext_block (by simp) (by simp) (by simp) fun r => ?_
  simp only [block_sweep, layout_sweep]
  by_cases hr : r ∈ fn.layout
  · simp only [if_pos hr, Block.sweep, List.filter_filter, Block.mk.injEq, true_and, and_true]
    refine List.filter_congr fun i hi => ?_
    rw [Bool.and_comm]
    exact h i (mem_code_iff.mpr ⟨r, hr, hi⟩)
  · simp only [if_neg hr]

theorem sweep_of_forall (h : ∀ i ∈ fn.code, keep i = true) : fn.sweep keep = fn := by
  refine ext_block (by simp) (by simp) (by simp) fun r => ?_
  rw [block_sweep]
  split
  case isTrue hr =>
    have hbody : (fn.block r).body.filter keep = (fn.block r).body :=
      List.filter_eq_self.mpr fun i hi => h i (mem_code_iff.mpr ⟨r, hr, hi⟩)
    simp only [Block.sweep, hbody]
  case isFalse => rfl

/-! ## Eliminations one after the other -/

/-- What an elimination that succeeds says of the function, and how it sweeps. -/
theorem eliminate_eq_ok {after : Func} (h : fn.eliminate oracle = (.ok (), after)) :
    (∀ i ∈ fn.code, i.op.fault? oracle = none) ∧ Resolved oracle fn.code ∧
      ∃ keep : Instr → Bool, (∀ i, keep i = true ↔ Necessary oracle fn.code i) ∧
        after = fn.sweep keep := by
  have hok : (fn.eliminate oracle).1 = .ok () := congrArg Prod.fst h
  obtain ⟨hfault, hres⟩ := eliminate_eq_ok_iff.mp hok
  obtain ⟨keep, hkeep, hafter⟩ := eliminate_of_ok hok
  rw [h] at hafter
  exact ⟨hfault, hres, keep, hkeep, hafter⟩

/-- An elimination succeeds on what a closed sweep leaves, whatever the oracle, unless it finds fault
with an instruction. -/
theorem eliminate_sweep (hclosed : Closed fn.code keep)
    (hfault : ∀ i ∈ fn.code, i.op.fault? oracle = none) :
    ((fn.sweep keep).eliminate oracle).1 = .ok () := by
  refine eliminate_of_resolved (fun i hi => ?_) ?_
  · rw [code_sweep] at hi
    exact hfault i (List.mem_of_mem_filter hi)
  · rw [code_sweep]
    exact hclosed.resolved_filter

/-- After an elimination with a less knowing oracle there is as much left to find as before it. -/
theorem eliminate_after_narrower (hsub : ∀ c, narrow.vouches c = true → wide.vouches c = true)
    (hfault : ∀ i ∈ fn.code, i.op.fault? wide = none) {first : Func}
    (h : fn.eliminate narrow = (.ok (), first)) :
    ∃ after, first.eliminate wide = (.ok (), after) ∧ fn.eliminate wide = (.ok (), after) := by
  obtain ⟨-, hres, keep, hkeep, rfl⟩ := eliminate_eq_ok h
  have hclosed : Closed fn.code keep := closed_of_necessary hkeep hres
  have hall : ∀ i, Necessary wide fn.code i → keep i = true :=
    fun i hi => (hkeep i).mpr (hi.mono hsub)
  -- both eliminations succeed
  have honce : (fn.eliminate wide).1 = .ok () := eliminate_of_resolved hfault (hres.mono hsub)
  have htwice : ((fn.sweep keep).eliminate wide).1 = .ok () := eliminate_sweep hclosed hfault
  -- and they find the same necessary
  obtain ⟨once, hkeep₁, hafter₁⟩ := eliminate_of_ok honce
  obtain ⟨twice, hkeep₂, hafter₂⟩ := eliminate_of_ok htwice
  have hsame : (fn.sweep keep).sweep twice = fn.sweep once := by
    refine sweep_sweep fun i _ => ?_
    rw [Bool.eq_iff_iff, Bool.and_eq_true, hkeep₁, hkeep₂, code_sweep,
      hclosed.necessary_filter_iff hall]
    exact and_iff_right_of_imp (hall i)
  exact ⟨fn.sweep once, Prod.ext htwice (hafter₂.trans hsame), Prod.ext honce hafter₁⟩

/-- After an elimination with a more knowing oracle there is nothing left to find. -/
theorem eliminate_after_wider (hsub : ∀ c, narrow.vouches c = true → wide.vouches c = true)
    (hfault : ∀ i ∈ fn.code, i.op.fault? narrow = none) {first : Func}
    (h : fn.eliminate wide = (.ok (), first)) : first.eliminate narrow = (.ok (), first) := by
  obtain ⟨-, hres, keep, hkeep, rfl⟩ := eliminate_eq_ok h
  have hclosed : Closed fn.code keep := closed_of_necessary hkeep hres
  have hok : ((fn.sweep keep).eliminate narrow).1 = .ok () := eliminate_sweep hclosed hfault
  obtain ⟨again, hagain, hafter⟩ := eliminate_of_ok hok
  have hall : ∀ i ∈ (fn.sweep keep).code, again i = true := by
    intro i hi
    rw [code_sweep] at hi
    rw [hagain, code_sweep]
    have hnec : Necessary wide fn.code i := (hkeep i).mp (List.mem_filter.mp hi).2
    exact ((hclosed.necessary_filter_iff fun j hj => (hkeep j).mpr hj).mpr hnec).mono hsub
  exact Prod.ext hok (hafter.trans (sweep_of_forall hall))

/-- **Eliminations in stages.** The oracle `wide` knows every const callee that `narrow` knows. If an
elimination with `narrow` succeeds, then one with `wide` succeeds on its result and on the function
itself, and leaves the same. If an elimination with `wide` succeeds, then one with `narrow` succeeds
on its result and changes nothing. So an elimination done twice is the same as done once. -/
theorem eliminate_staged {narrow wide : Callee → Bool}
    (hsub : ∀ c, narrow c = true → wide c = true) (fn : Func) :
    (∀ first, fn.eliminate (.ofRule narrow) = (.ok (), first) →
      ∃ after, first.eliminate (.ofRule wide) = (.ok (), after) ∧
        fn.eliminate (.ofRule wide) = (.ok (), after)) ∧
    (∀ first, fn.eliminate (.ofRule wide) = (.ok (), first) →
      first.eliminate (.ofRule narrow) = (.ok (), first)) ∧
    ∀ (rule : Callee → Bool) (first : Func), fn.eliminate (.ofRule rule) = (.ok (), first) →
      first.eliminate (.ofRule rule) = (.ok (), first) := by
  have hvouches : ∀ c, (Oracle.ofRule narrow).vouches c = true →
      (Oracle.ofRule wide).vouches c = true := by
    simpa using hsub
  -- oracles that do not fail find fault with the same instructions
  have hfault : ∀ {rule first}, fn.eliminate (.ofRule rule) = (.ok (), first) →
      ∀ rule', ∀ i ∈ fn.code, i.op.fault? (.ofRule rule') = none := by
    intro rule first h rule' i hi
    rw [Op.fault?_ofRule_eq rule' rule]
    exact (eliminate_eq_ok h).1 i hi
  refine ⟨fun first h => ?_, fun first h => ?_, fun rule first h => ?_⟩
  · exact eliminate_after_narrower hvouches (hfault h wide) h
  · exact eliminate_after_wider hvouches (hfault h narrow) h
  · exact eliminate_after_wider (fun _ hc => hc) (hfault h rule) h

/-- The tangle without what is dead if all calls have effects. -/
def tangleFirst : Func where
  name := "tangle"
  pool := [
    ⟨7, [⟨0, .param ⟨1⟩ 0⟩, ⟨2, .call ⟨3⟩ (.named "len") [.ref ⟨1⟩]⟩, ⟨3, .jump 1⟩], []⟩,
    ⟨7, [⟨6, .call ⟨6⟩ (.named "len") [.ref ⟨6⟩]⟩, ⟨7, .copy ⟨2⟩ (.ref ⟨3⟩)⟩,
      ⟨8, .ret [.ref ⟨2⟩]⟩], [0]⟩,
    ⟨9, [⟨9, .copy ⟨2⟩ (.lit 1)⟩], []⟩]
  layout := [0, 1, 1]

theorem tangle_in_stages :
    tangle.eliminate .never = (.ok (), tangleFirst) ∧ tangleFirst ≠ tangleSwept ∧
      (∃ after, tangleFirst.eliminate (ConstSet.ofList ["len"]).oracle = (.ok (), after) ∧
        tangle.eliminate (ConstSet.ofList ["len"]).oracle = (.ok (), after)) ∧
      tangleSwept.eliminate .never = (.ok (), tangleSwept) := by
  have hfirst : tangle.eliminate .never = (.ok (), tangleFirst) := by cbv
  have hstaged := @eliminate_staged (fun _ => false) (ConstSet.ofList ["len"]).contains (by simp)
    tangle
  exact ⟨hfirst, by decide, hstaged.1 _ hfirst, hstaged.2.1 _ eliminate_tangle⟩

end Deadwood.Func
