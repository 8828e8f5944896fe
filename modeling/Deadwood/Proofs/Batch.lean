import Deadwood.Proofs.Interleaving

/-!
# Batches come out the same under every schedule

**Theorem (`eliminateAll_independent`).** A batch leaves every function as an elimination of its own
leaves it, fails exactly if one of these eliminations fails, and then names the failing function of
least index and its fault. The statistics grow by the work on the functions that succeed. This holds
for every order in which the tasks are done, and also if the tasks are not done one after the other
but their steps interleave in any way. A list with a gap is refused before anything is done.

What independent eliminations leave is written down once, as `Batch.alone`. Interleaved tasks arrive
there (`Progress.batch_of_finished`). For tasks done in some order the invariant says which functions
are still as they were and which are as their own elimination leaves them (`Batch.Reached`). What a
batch reports is then read off `Batch.alone` (`independent_alone`).
-/

namespace Deadwood

namespace Batch

/-! ## Tasks in some order -/

variable {settings : Settings} {fns : List Func} {stats : Stats}

theorem runTask_eq {b : Batch} {i : Nat} {fn : Func} (h : b.funcs[i]? = some fn) :
    b.runTask settings i =
      { funcs := b.funcs.set i (settings.run fn).after
        failures := (settings.run fn).fault?.elim b.failures fun f => b.failures.set i (some f)
        stats := b.stats + settings.work fn } := by
  unfold runTask Report.fault?
  simp only [h, ← settings.recordReport_run, Stats.recordReport]
  cases (settings.run fn).outcome <;> rfl

/-- The tasks of a list of indices are done, and no others. -/
structure Reached (settings : Settings) (fns : List Func) (stats : Stats) (done : List Nat)
    (b : Batch) : Prop where
  funcs : ∀ j, b.funcs[j]? =
    if j ∈ done then fns[j]?.map fun fn => (settings.run fn).after else fns[j]?
  failures : ∀ j, b.failures[j]? =
    fns[j]?.map fun fn => if j ∈ done then (settings.run fn).fault? else none
  stats : b.stats = stats + (done.map fun j => (fns[j]?.map settings.work).getD 0).sum

theorem reached_start (settings : Settings) (fns : List Func) (stats : Stats) :
    Reached settings fns stats [] (start fns stats) := by
  refine ⟨fun j => ?_, fun j => ?_, ?_⟩
  · simp [start]
  · rw [start, List.getElem?_map]
    simp
  · simp [start]

theorem Reached.runTask {done : List Nat} {b : Batch} (h : Reached settings fns stats done b)
    {i : Nat} (hi : i ∉ done) : Reached settings fns stats (i :: done) (b.runTask settings i) := by
  have hfunc : b.funcs[i]? = fns[i]? := by rw [h.funcs, if_neg hi]
  cases hfn : fns[i]? with
  | none =>
    -- there is no such task
    have hsame : b.runTask settings i = b := by simp [Batch.runTask, hfunc, hfn]
    rw [hsame]
    refine ⟨fun j => ?_, fun j => ?_, by simp [h.stats, hfn]⟩
    · rw [h.funcs]
      by_cases hj : j = i <;> simp [hj, hfn, hi]
    · rw [h.failures]
      by_cases hj : j = i <;> simp [hj, hfn]
  | some fn =>
    rw [runTask_eq (hfunc.trans hfn)]
    refine ⟨fun j => ?_, fun j => ?_, ?_⟩
    · by_cases hj : j = i
      · subst hj
        simp [hfn, (List.getElem?_eq_some_iff.mp (hfunc.trans hfn)).1]
      · simp [List.getElem?_set_ne (Ne.symm hj), h.funcs, hj]
    · have hslot : i < b.failures.length := by
        have := h.failures i
        rw [hfn, Option.map_some] at this
        exact (List.getElem?_eq_some_iff.mp this).1
      by_cases hj : j = i
      · subst hj
        cases hf : (settings.run fn).fault? with
        | none => simp [h.failures, hfn, hf, hi]
        | some f => simp [hfn, hf, hslot]
      · cases (settings.run fn).fault? with
        | none => simp [h.failures, hj]
        | some f => simp [List.getElem?_set_ne (Ne.symm hj), h.failures, hj]
    · simp only [h.stats, List.map_cons, List.sum_cons, hfn, Option.map_some, Option.getD_some]
      rw [add_assoc, add_comm (settings.work fn)]

theorem Reached.run {done schedule : List Nat} {b : Batch} (h : Reached settings fns stats done b)
    (hnodup : (schedule.reverse ++ done).Nodup) :
    Reached settings fns stats (schedule.reverse ++ done) (b.run settings schedule) := by
  induction schedule generalizing done b with
  | nil => exact h
  | cons i rest ih =>
    rw [List.reverse_cons, List.append_assoc, List.singleton_append] at hnodup ⊢
    have hi : i ∉ done := (List.nodup_cons.mp (List.nodup_append.mp hnodup).2.1).1
    exact ih (h.runTask hi) hnodup

/-- **Tasks that are done one after the other, each once, leave what independent eliminations
leave.** -/
theorem run_of_perm {schedule : List Nat} (h : schedule.Perm (List.range fns.length)) :
    (start fns stats).run settings schedule = alone settings fns stats := by
  have hperm : schedule.reverse.Perm (List.range fns.length) := schedule.reverse_perm.trans h
  have hmem : ∀ j, j ∈ schedule.reverse ↔ j < fns.length := by
    intro j
    rw [hperm.mem_iff, List.mem_range]
  have hdone : Reached settings fns stats (schedule.reverse ++ [])
      ((start fns stats).run settings schedule) := by
    refine (reached_start settings fns stats).run ?_
    simpa using h.nodup_iff.mpr List.nodup_range
  rw [List.append_nil] at hdone
  generalize (start fns stats).run settings schedule = b at hdone
  obtain ⟨funcs, failures, total⟩ := b
  unfold alone
  congr 1
  · refine List.ext_getElem? fun j => (hdone.funcs j).trans ?_
    by_cases hj : j < fns.length <;> simp [hmem, hj]
  · refine List.ext_getElem? fun j => (hdone.failures j).trans ?_
    by_cases hj : j < fns.length <;> simp [hmem, hj]
  · have hwork : ((List.range fns.length).map fun j => (fns[j]?.map settings.work).getD 0) =
        fns.map settings.work := by
      refine List.ext_getElem (by simp) fun j hj hj' => ?_
      have hlt : j < fns.length := by simpa using hj
      simp [hlt]
    refine hdone.stats.trans ?_
    rw [(hperm.map _).sum_eq, hwork]

/-! ## What is reported -/

theorem failure?_alone (settings : Settings) (fns : List Func) (stats : Stats) :
    (alone settings fns stats).failure? =
      fns.findSome? fun fn => (settings.run fn).fault?.map fun f => ⟨fn.name, some f⟩ := by
  simp [failure?, alone, List.zip_map', List.findSome?_map, Function.comp_def, Settings.name_run]

end Batch

namespace Session

/-- What a batch amounts to, in terms of an elimination of each function on its own with the same
options. -/
structure Independent (s : Session) (options : List Setting) (fns : List Func)
    (report : BatchReport) (next : Session) : Prop where
  /-- Each function is as its own elimination leaves it. -/
  funcs : report.funcs = fns.map fun fn => some (s.eliminate options fn).1.after
  /-- A function on which that fails is as it was. -/
  unchanged : ∀ fn ∈ fns, ∀ f, (s.eliminate options fn).1.outcome = .error f →
    (s.eliminate options fn).1.after = fn
  /-- The batch fails exactly if one of the eliminations fails. -/
  fails_iff : report.fault ≠ none ↔
    ∃ fn ∈ fns, ∃ f, (s.eliminate options fn).1.outcome = .error f
  /-- The first function on which it fails is named, with the reason. -/
  first : ∀ before fn after f, fns = before ++ fn :: after →
    (∀ g ∈ before, (s.eliminate options g).1.outcome = .ok ()) →
    (s.eliminate options fn).1.outcome = .error f →
    report.fault = some (.failed ⟨fn.name, some f⟩)
  /-- The functions on which it succeeds are counted, and nothing else changes in the session. -/
  session :
    let succeeded := fns.filter fun fn => (s.eliminate options fn).1.outcome.isOk
    next = { s with
      stats :=
        { funcs := s.stats.funcs + .ofNat succeeded.length
          instrs := s.stats.instrs + .ofNat (succeeded.map Func.size).sum
          removed := s.stats.removed + .ofNat (succeeded.map fun fn =>
            fn.size - (s.eliminate options fn).1.after.size).sum } }

theorem independent_alone {s : Session} {options : List Setting} {settings : Settings}
    (h : Settings.resolve s.defaults options = .ok settings) (fns : List Func) :
    s.Independent options fns (Batch.alone settings fns s.stats).report
      { s with stats := (Batch.alone settings fns s.stats).stats } := by
  have hrun : ∀ fn, (s.eliminate options fn).1 = settings.run fn := by
    intro fn
    rw [eliminate_of_settings h]
  have hfail : ∀ fn f, (s.eliminate options fn).1.outcome = .error f ↔
      (settings.run fn).fault? = some f := by
    intro fn f
    rw [hrun, Report.fault?_eq_some_iff]
  refine ⟨?_, fun fn _ f hf => ?_, ?_, fun before fn after f hfns hbefore hf => ?_, ?_⟩
  · simp [hrun, Batch.report, Batch.alone]
  · rw [hrun] at hf ⊢
    exact Settings.run_of_error hf
  · simp [hfail, Batch.report, Batch.failure?_alone, Option.ne_none_iff_isSome,
      Option.isSome_iff_exists]
  · have hskip : (before.findSome? fun g =>
        (settings.run g).fault?.map fun f => (⟨g.name, some f⟩ : PassFailure)) = none := by
      refine List.findSome?_eq_none_iff.mpr fun g hg => ?_
      rw [Report.fault?_eq_none_iff.mpr (hrun g ▸ hbefore g hg), Option.map_none]
    rw [Batch.report, Batch.failure?_alone, hfns, List.findSome?_append, hskip,
      Option.none_or, List.findSome?_cons, (hfail fn f).mp hf]
    rfl
  · simp only [hrun, Batch.alone, Settings.sum_map_work, Stats.sum_work, Stats.add_def]

theorem eliminateAllIn_of_perm {s : Session} {options : List Setting} {settings : Settings}
    (h : Settings.resolve s.defaults options = .ok settings) {fns : List Func}
    {schedule : List Nat} (hperm : schedule.Perm (List.range fns.length)) :
    s.eliminateAllIn schedule options (fns.map some) =
      ((Batch.alone settings fns s.stats).report,
        { s with stats := (Batch.alone settings fns s.stats).stats }) := by
  have hpresent : (fns.map some).findIdx? Option.isNone = none := by
    simp [List.findIdx?_eq_none_iff]
  have hfns : (fns.map some).filterMap id = fns := by
    rw [List.filterMap_map]
    exact List.filterMap_some
  simp only [eliminateAllIn, h, hpresent, hfns, Batch.run_of_perm hperm]

theorem eliminateAllIn_of_gap {s : Session} {options : List Setting} {settings : Settings}
    (h : Settings.resolve s.defaults options = .ok settings) {funcs : List (Option Func)} {i : Nat}
    (hi : funcs[i]? = some none) (hleast : ∀ j < i, funcs[j]? ≠ some none) (schedule : List Nat) :
    s.eliminateAllIn schedule options funcs =
      (⟨funcs, some (.refused (.missingFunc i))⟩, s) := by
  have hgap : funcs.findIdx? Option.isNone = some i := by
    obtain ⟨hlt, hnone⟩ := List.getElem?_eq_some_iff.mp hi
    refine List.findIdx?_eq_some_iff_getElem.mpr ⟨hlt, by simp [hnone], fun j hj => ?_⟩
    have hpresent := hleast j hj
    rw [List.getElem?_eq_getElem (hj.trans hlt)] at hpresent
    simpa using hpresent
  simp only [eliminateAllIn, h, hgap]

/-- **A batch amounts to independent eliminations**, whatever the order in which its tasks are done,
and also if their steps interleave. If a function is missing, the batch names the first gap and does
nothing. -/
theorem eliminateAll_independent {s : Session} {options : List Setting} {settings : Settings}
    (h : Settings.resolve s.defaults options = .ok settings) :
    (∀ (fns : List Func) (schedule : List Nat), schedule.Perm (List.range fns.length) →
      s.Independent options fns (s.eliminateAllIn schedule options (fns.map some)).1
        (s.eliminateAllIn schedule options (fns.map some)).2) ∧
    (∀ (fns : List Func) (steps : List Nat),
      ((Progress.start fns s.stats).run settings steps).Finished →
      s.Independent options fns ((Progress.start fns s.stats).run settings steps).batch.report
        { s with stats := ((Progress.start fns s.stats).run settings steps).batch.stats }) ∧
    ∀ (funcs : List (Option Func)) (schedule : List Nat) (i : Nat), funcs[i]? = some none →
      (∀ j < i, funcs[j]? ≠ some none) →
      s.eliminateAllIn schedule options funcs =
        (⟨funcs, some (.refused (.missingFunc i))⟩, s) ∧
      (Fault.missingFunc i).message = "ssadce: nil function at index " ++ toString i := by
  refine ⟨fun fns schedule hperm => ?_, fun fns steps hdone => ?_,
    fun funcs schedule i hi hleast => ⟨eliminateAllIn_of_gap h hi hleast schedule, rfl⟩⟩
  · rw [eliminateAllIn_of_perm h hperm]
    exact independent_alone h fns
  · rw [Progress.batch_of_finished hdone]
    exact independent_alone h fns

/-- Calls to `len` are const, and nothing can be said of `alarm`. -/
def wary : Oracle :=
  ⟨fun c => if c = .named "alarm" then .error "no answer" else .ok (decide (c = .named "len"))⟩

/-- A function that refers to a value that nothing defines. -/
def stray : Func := ⟨"stray", [⟨0, [⟨0, .ret [.ref ⟨4⟩]⟩], []⟩], [0]⟩

def alarmed : Func :=
  ⟨"alarmed", [⟨0, [⟨0, .call ⟨1⟩ (.named "alarm") []⟩, ⟨1, .ret [.ref ⟨4⟩]⟩], []⟩], [0]⟩

theorem mixedBatch_independent :
    let s := Session.start .standard
    let options : List Setting := [.oracle (some wary), .maxWorkers 2]
    let fns := [.tangle, alarmed, stray, .tangle]
    (s.eliminateAllIn [3, 2, 0, 1] options (fns.map some)).1.fault =
        some (.failed ⟨"alarmed", some (.oracle "no answer")⟩) ∧
      s.Independent options fns
        ((Progress.start fns s.stats).run ⟨some wary, false, false, 2⟩
          (List.replicate 10 [3, 0, 2, 1]).flatten).batch.report
        { s with stats := ⟨2, 28, 14⟩ } ∧
      s.eliminateAllIn [1, 0] options [some stray, none] =
        (⟨[some stray, none], some (.refused (.missingFunc 1))⟩, s) := by
  intro s options fns
  have hset : Settings.resolve s.defaults options = .ok ⟨some wary, false, false, 2⟩ := rfl
  obtain ⟨hordered, hinterleaved, hgap⟩ := eliminateAll_independent hset
  have hstages : ((Progress.start fns s.stats).run ⟨some wary, false, false, 2⟩
      (List.replicate 10 [3, 0, 2, 1]).flatten).tasks.map (·.stage) =
      [.done, .done, .done, .done] := by cbv
  have hstats : ((Progress.start fns s.stats).run ⟨some wary, false, false, 2⟩
      (List.replicate 10 [3, 0, 2, 1]).flatten).batch.stats = ⟨2, 28, 14⟩ := by cbv
  refine ⟨?_, ?_, ?_⟩
  · exact (hordered fns [3, 2, 0, 1] (by decide)).first [.tangle] alarmed [stray, .tangle] _ rfl
      (by simp; cbv) (by cbv)
  · rw [← hstats]
    refine hinterleaved fns _ fun t ht => ?_
    have hmem : t.stage ∈ [.done, .done, .done, .done] := hstages ▸ List.mem_map_of_mem ht
    simpa using hmem
  · exact (hgap _ _ 1 rfl (by decide)).1

end Session

end Deadwood
