import Deadwood.Settings
import Deadwood.Proofs.Staging

/-!
# The more an oracle knows, the less is left

**Theorem (`eliminate_monotone`).** Let one oracle know every const callee that another one knows.
If an elimination succeeds with the less knowing oracle, it succeeds with the more knowing one, and
what this leaves in a block is a subsequence of what the other leaves. Where no oracle is set, an
elimination leaves at least what it would leave with any.

The two eliminations take different ways through the code, since a call that is a root for one of
them waits on the other's worklist until somebody refers to its result. But neither result depends
on the way: each is a sweep by what is necessary, and less is necessary for the more knowing oracle
(`Necessary.mono`). With it go the references that have to be resolved, so that it may succeed where
the other fails.
-/

namespace Deadwood.Func

variable {fn : Func} {narrow wide : Oracle}

/-- A sweep that keeps less leaves a subsequence in every block. -/
theorem sublist_sweep {less more : Instr → Bool} (h : ∀ i, less i = true → more i = true)
    (r : BlockRef) :
    ((fn.sweep less).block r).body.Sublist ((fn.sweep more).block r).body := by
  rw [block_sweep, block_sweep]
  by_cases hr : r ∈ fn.layout
  · rw [if_pos hr, if_pos hr, Block.body_sweep, Block.body_sweep]
    exact List.monotone_filter_right _ h
  · rw [if_neg hr, if_neg hr]

/-- A more knowing oracle that finds no fault succeeds where a less knowing one does, and leaves a
subsequence in every block. -/
theorem eliminate_wider (hsub : ∀ c, narrow.vouches c = true → wide.vouches c = true)
    (hfault : ∀ i ∈ fn.code, i.op.fault? wide = none) {first : Func}
    (h : fn.eliminate narrow = (.ok (), first)) :
    ∃ after, fn.eliminate wide = (.ok (), after) ∧
      ∀ r, (after.block r).body.Sublist (first.block r).body := by
  obtain ⟨-, hres, more, hmore, rfl⟩ := eliminate_eq_ok h
  have hok : (fn.eliminate wide).1 = .ok () := eliminate_of_resolved hfault (hres.mono hsub)
  obtain ⟨less, hless, hafter⟩ := eliminate_of_ok hok
  refine ⟨fn.sweep less, Prod.ext hok hafter, sublist_sweep fun i hi => ?_⟩
  have hnec : Necessary wide fn.code i := (hless i).mp hi
  exact (hmore i).mpr (hnec.mono hsub)

/-- The same for oracles that do not fail, where no instruction can be at fault for one of them
only. -/
theorem eliminate_wider_rule {narrow wide : Callee → Bool}
    (hsub : ∀ c, narrow c = true → wide c = true) {first : Func}
    (h : fn.eliminate (.ofRule narrow) = (.ok (), first)) :
    ∃ after, fn.eliminate (.ofRule wide) = (.ok (), after) ∧
      ∀ r, (after.block r).body.Sublist (first.block r).body := by
  refine eliminate_wider (by simpa using hsub) (fun i hi => ?_) h
  rw [Op.fault?_ofRule_eq wide narrow]
  exact (eliminate_eq_ok h).1 i hi

/-- **The more an oracle knows, the less is left.** The rule `wide` calls every callee const that
`narrow` calls so. If an elimination succeeds with `narrow`, then with `wide`. If both succeed, the
latter leaves a subsequence in every block. Settings without an oracle are those for which no callee
is const: what an elimination leaves with them contains what it leaves with any rule. -/
theorem eliminate_monotone {narrow wide : Callee → Bool}
    (hsub : ∀ c, narrow c = true → wide c = true) (fn : Func) :
    (∀ first, fn.eliminate (.ofRule narrow) = (.ok (), first) →
      ∃ after, fn.eliminate (.ofRule wide) = (.ok (), after)) ∧
    (∀ first after, fn.eliminate (.ofRule narrow) = (.ok (), first) →
      fn.eliminate (.ofRule wide) = (.ok (), after) →
      ∀ r, (after.block r).body.Sublist (first.block r).body) ∧
    ∀ settings : Settings, settings.oracle = none →
      fn.eliminate settings.effective = fn.eliminate (.ofRule fun _ => false) ∧
      ∀ (rule : Callee → Bool) (most : Func), fn.eliminate settings.effective = (.ok (), most) →
        ∃ after, fn.eliminate (.ofRule rule) = (.ok (), after) ∧
          ∀ r, (after.block r).body.Sublist (most.block r).body := by
  refine ⟨fun first h => ?_, fun first after h h' => ?_, fun settings hnone => ?_⟩
  · obtain ⟨after, hafter, -⟩ := eliminate_wider_rule hsub h
    exact ⟨after, hafter⟩
  · obtain ⟨left, hleft, hsublist⟩ := eliminate_wider_rule hsub h
    obtain rfl : left = after := (Prod.mk.inj (hleft.symm.trans h')).2
    exact hsublist
  · have hnever : settings.effective = .ofRule fun _ => false := by
      simp [Settings.effective, Oracle.inForce, hnone, Oracle.never]
    rw [hnever]
    exact ⟨rfl, fun rule most h => eliminate_wider_rule (by simp) h⟩

theorem tangle_monotone :
    tangle.eliminate .never = (.ok (), tangleFirst) ∧
      tangle.eliminate (ConstSet.ofList ["len"]).oracle = (.ok (), tangleSwept) ∧
      (∀ r, (tangleSwept.block r).body.Sublist (tangleFirst.block r).body) ∧
      ∀ rule : Callee → Bool, ∃ after, tangle.eliminate (.ofRule rule) = (.ok (), after) ∧
        ∀ r, (after.block r).body.Sublist (tangleFirst.block r).body := by
  have hfirst : tangle.eliminate .never = (.ok (), tangleFirst) := by cbv
  have hmono := @eliminate_monotone (fun _ => false) (ConstSet.ofList ["len"]).contains (by simp)
    tangle
  refine ⟨hfirst, eliminate_tangle, hmono.2.1 _ _ hfirst eliminate_tangle, fun rule => ?_⟩
  exact (hmono.2.2 (.ofDefaults .standard) rfl).2 rule _ hfirst

/-- A call whose result nobody uses has an operand that nothing defines. -/
def brittle : Func where
  name := "brittle"
  pool := [⟨0, [⟨0, .call ⟨1⟩ (.named "len") [.ref ⟨2⟩]⟩, ⟨1, .ret []⟩], []⟩]
  layout := [0]

-- The converse fails: what the less knowing oracle has to resolve may be beyond it.
example : (brittle.eliminate .never).1 = .error (.violation (.undefined "brittle" ⟨2⟩)) ∧
    (brittle.eliminate (ConstSet.ofList ["len"]).oracle).1 = .ok () := by
  constructor <;> cbv

end Deadwood.Func
