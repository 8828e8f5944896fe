import Deadwood.Proofs.Batch

/-!
# The statistics account for the work done

A session serves **requests**: to eliminate the dead instructions of a function or of several, or to
turn the check or the recording of events on or off. Some of them fail, as a whole or on some of
their functions. A **history** is a list of turns, each with the session as it was, the request and
the functions as they were left. The tasks of a batch may be done in any order, and their steps may
interleave in any way.

**Theorem (`stats_account`).** After any history the statistics have grown by the number of functions
on which an elimination was completed, by the instructions they had, and by those they lost, unless
these totals outgrow the counters. A function on which it failed is as before and does not count. The
events of a completed elimination give the numbers that are counted, and whether events are recorded
makes no difference to any function or counter.

What a request does is a list of entries, one for each function (`entries`), and adds up
(`Serves.adds_up`). Batches contribute through `Batch.alone`, which no order of the tasks changes.
For the last part, a session is compared with one that is asked the same with every mention of events
left out (`eliminate_untraced`).
-/

namespace Deadwood

/-! ## Requests and what they do -/

namespace Session

/-- What a session may be asked. -/
inductive Request where
  | setVerify (on : Bool)
  | setTrace (on : Bool)
  | eliminate (options : List Setting) (fn : Func)
  /-- Eliminate the dead instructions of several functions, some of which may be missing. -/
  | eliminateAll (options : List Setting) (funcs : List (Option Func))

/-- The options that come with a request. -/
def Request.options : Request → List Setting
  | setVerify _ | setTrace _ => []
  | eliminate options _ | eliminateAll options _ => options

/-- The functions that a request is about. -/
def Request.funcs : Request → List (Option Func)
  | setVerify _ | setTrace _ => []
  | eliminate _ fn => [some fn]
  | eliminateAll _ funcs => funcs

/-- An elimination that was asked for: the function as it was, and what came of it. -/
structure Entry where
  before : Func
  report : Report

namespace Entry

def completed (e : Entry) : Bool := e.report.outcome.isOk

/-- The number of instructions that the function lost. -/
def removed (e : Entry) : Nat := e.before.size - e.report.after.size

/-- What the elimination adds to the statistics. -/
def work (e : Entry) : Stats := e.report.work e.before

end Entry

/-- The eliminations that a request amounts to. A batch with a gap is refused and has none. -/
def entries (s : Session) : Request → List Entry
  | .setVerify _ | .setTrace _ => []
  | .eliminate options fn => [⟨fn, (s.eliminate options fn).1⟩]
  | .eliminateAll options funcs =>
    if none ∈ funcs then []
    else (funcs.filterMap id).map fun fn => ⟨fn, (s.eliminate options fn).1⟩

/-- The defaults after a request. -/
def Request.adjust (d : Defaults) : Request → Defaults
  | setVerify on => { d with verify := on }
  | setTrace on => { d with trace := on }
  | eliminate .. | eliminateAll .. => d

/-- The session after a request, if what its entries did is all that counts. -/
def next (s : Session) (r : Request) : Session :=
  ⟨r.adjust s.defaults, s.stats + ((s.entries r).map Entry.work).sum⟩

/-- The request can take the session to another one and leave these functions. -/
inductive Serves (s : Session) : Request → List (Option Func) → Session → Prop
  | setVerify (on : Bool) : Serves s (.setVerify on) [] (s.setVerify on)
  | setTrace (on : Bool) : Serves s (.setTrace on) [] (s.setTrace on)
  | eliminate (options : List Setting) (fn : Func) :
      Serves s (.eliminate options fn) [some (s.eliminate options fn).1.after]
        (s.eliminate options fn).2
  /-- The tasks of a batch are done one after the other, in some order. -/
  | inOrder (schedule : List Nat) (options : List Setting) (funcs : List (Option Func)) :
      schedule.Perm (List.range funcs.length) →
      Serves s (.eliminateAll options funcs) (s.eliminateAllIn schedule options funcs).1.funcs
        (s.eliminateAllIn schedule options funcs).2
  /-- The tasks of a batch are done together, and their steps interleave. -/
  | interleaved {options : List Setting} {settings : Settings} (fns : List Func)
      {steps : List Nat} :
      Settings.resolve s.defaults options = .ok settings →
      ((Progress.start fns s.stats).run settings steps).Finished →
      Serves s (.eliminateAll options (fns.map some))
        ((Progress.start fns s.stats).run settings steps).batch.report.funcs
        { s with stats := ((Progress.start fns s.stats).run settings steps).batch.stats }

/-- A request that was served: the session at the time, and the functions as they were left. -/
structure Turn where
  session : Session
  request : Request
  left : List (Option Func)

/-- The eliminations of a turn. -/
def Turn.entries (turn : Turn) : List Entry := turn.session.entries turn.request

/-- Requests that were served one after the other. -/
inductive History : Session → List Turn → Session → Prop
  | nil (s : Session) : History s [] s
  | cons {s t u : Session} {r : Request} {left : List (Option Func)} {turns : List Turn} :
      Serves s r left t → History t turns u → History s (⟨s, r, left⟩ :: turns) u

/-- All eliminations of a history, in order. -/
def log (turns : List Turn) : List Entry := turns.flatMap Turn.entries

/-- The eliminations of a history that were completed. -/
def completed (turns : List Turn) : List Entry := (log turns).filter Entry.completed

/-! ## Every request adds up -/

variable {s t : Session} {r : Request} {left : List (Option Func)}

/-- An elimination in a session is one with the settings in force, or it is refused. -/
theorem eliminate_cases (s : Session) (options : List Setting) :
    (∃ settings, Settings.resolve s.defaults options = .ok settings ∧ ∀ fn,
      s.eliminate options fn = (settings.run fn, { s with stats := s.stats + settings.work fn })) ∨
    ∃ f, Settings.resolve s.defaults options = .error f ∧ ∀ fn,
      s.eliminate options fn = (.refused fn f, s) := by
  cases h : Settings.resolve s.defaults options with
  | ok settings => exact Or.inl ⟨settings, rfl, fun fn => eliminate_of_settings h fn⟩
  | error f =>
    refine Or.inr ⟨f, rfl, fun fn => ?_⟩
    rw [Session.eliminate, h]

theorem eliminate_snd (s : Session) (options : List Setting) (fn : Func) :
    (s.eliminate options fn).2 =
      { s with stats := s.stats + (s.eliminate options fn).1.work fn } := by
  rcases s.eliminate_cases options with ⟨settings, -, h⟩ | ⟨f, -, h⟩
  · rw [h]
    rfl
  · rw [h]
    simp [Report.work, Report.refused]

/-- How the functions of a turn and its entries belong together: the request is refused as a whole and
leaves all functions alone, or there is an entry for each function and what it leaves is left. -/
def Turn.Covered (turn : Turn) : Prop :=
  turn.entries = [] ∧ turn.left = turn.request.funcs ∨
    turn.request.funcs = turn.entries.map (fun e => some e.before) ∧
      turn.left = turn.entries.map fun e => some e.report.after

theorem entries_of_gap {funcs : List (Option Func)} (h : none ∈ funcs) (options : List Setting) :
    s.entries (.eliminateAll options funcs) = [] := if_pos h

theorem entries_map_some (s : Session) (options : List Setting) (fns : List Func) :
    s.entries (.eliminateAll options (fns.map some)) =
      fns.map fun fn => ⟨fn, (s.eliminate options fn).1⟩ := by
  have hfns : (fns.map some).filterMap id = fns := by
    rw [List.filterMap_map]
    exact List.filterMap_some
  rw [entries, if_neg (by simp), hfns]

/-- A batch that comes out as independent eliminations do adds up. -/
theorem alone_adds_up {options : List Setting} {settings : Settings}
    (h : Settings.resolve s.defaults options = .ok settings) (fns : List Func) :
    Turn.Covered ⟨s, .eliminateAll options (fns.map some),
        (Batch.alone settings fns s.stats).report.funcs⟩ ∧
      { s with stats := (Batch.alone settings fns s.stats).stats } =
        s.next (.eliminateAll options (fns.map some)) := by
  have hrun : ∀ fn, (s.eliminate options fn).1 = settings.run fn := by
    intro fn
    rw [eliminate_of_settings h]
  constructor
  · refine Or.inr ⟨?_, ?_⟩
    · simp [Turn.entries, entries_map_some, Request.funcs]
    · simp [Turn.entries, entries_map_some, hrun, Batch.report, Batch.alone]
  · have hwork : (fun fn => Entry.work ⟨fn, settings.run fn⟩) = settings.work := rfl
    rw [next, entries_map_some, List.map_map]
    simp only [Function.comp_def, hrun, hwork, Batch.alone, Request.adjust]

/-- A batch that is refused, for its settings or for a gap, leaves everything as it is. -/
theorem eliminateAllIn_of_refused (schedule : List Nat) (options : List Setting)
    (funcs : List (Option Func))
    (h : (∃ f, Settings.resolve s.defaults options = .error f) ∨ none ∈ funcs) :
    (s.eliminateAllIn schedule options funcs).1.funcs = funcs ∧
      (s.eliminateAllIn schedule options funcs).2 = s := by
  unfold eliminateAllIn
  cases hset : Settings.resolve s.defaults options with
  | error f => exact ⟨rfl, rfl⟩
  | ok settings =>
    cases hidx : funcs.findIdx? Option.isNone with
    | some i => exact ⟨rfl, rfl⟩
    | none =>
      have hpresent := List.findIdx?_eq_none_iff.mp hidx
      rcases h with ⟨f, hf⟩ | hgap
      · rw [hset] at hf
        cases hf
      · exact absurd (hpresent none hgap) (by simp)

/-- **Every request adds up**: what it adds to the statistics is the work of its entries, and what it
leaves is what they leave. -/
theorem Serves.adds_up (h : Serves s r left t) : Turn.Covered ⟨s, r, left⟩ ∧ t = s.next r := by
  cases h with
  | setVerify on =>
    refine ⟨Or.inl ⟨rfl, rfl⟩, ?_⟩
    simp [next, entries, Session.setVerify, Request.adjust]
  | setTrace on =>
    refine ⟨Or.inl ⟨rfl, rfl⟩, ?_⟩
    simp [next, entries, Session.setTrace, Request.adjust]
  | eliminate options fn =>
    refine ⟨Or.inr ⟨rfl, rfl⟩, ?_⟩
    rw [eliminate_snd]
    simp [next, entries, Entry.work, Request.adjust]
  | inOrder schedule options funcs hperm =>
    by_cases hgap : none ∈ funcs
    · obtain ⟨hfuncs, hsession⟩ :=
        eliminateAllIn_of_refused (s := s) schedule options funcs (Or.inr hgap)
      rw [hfuncs, hsession]
      refine ⟨Or.inl ⟨entries_of_gap hgap options, rfl⟩, ?_⟩
      simp [next, entries_of_gap hgap, Request.adjust]
    · obtain ⟨fns, rfl⟩ : funcs ∈ Set.range (List.map some) := by
        rw [Set.range_list_map]
        intro fn hfn
        exact Option.ne_none_iff_exists.mp fun hnone => hgap (hnone ▸ hfn)
      rcases s.eliminate_cases options with ⟨settings, hset, -⟩ | ⟨f, hset, helim⟩
      · rw [eliminateAllIn_of_perm hset (by simpa using hperm)]
        exact alone_adds_up hset fns
      · obtain ⟨hfuncs, hsession⟩ :=
          eliminateAllIn_of_refused schedule options (fns.map some) (Or.inl ⟨f, hset⟩)
        rw [hfuncs, hsession]
        refine ⟨Or.inr ⟨?_, ?_⟩, ?_⟩
        · simp [Turn.entries, entries_map_some, Request.funcs]
        · simp [Turn.entries, entries_map_some, helim, Report.refused]
        · simp [next, entries_map_some, helim, Function.comp_def, Entry.work, Report.work,
            Report.refused, Request.adjust]
  | @interleaved options settings fns steps hset hdone =>
    rw [Progress.batch_of_finished hdone]
    exact alone_adds_up hset fns

/-! ## Histories add up -/

/-- Serve requests one after the other: all entries, and the session in the end. -/
def replay (s : Session) : List Request → List Entry × Session
  | [] => ([], s)
  | r :: rest => (s.entries r ++ (replay (s.next r) rest).1, (replay (s.next r) rest).2)

variable {turns : List Turn}

/-- A history comes out as its requests do one after the other, whatever the order of the tasks in its
batches. -/
theorem History.replay_eq (h : History s turns t) :
    s.replay (turns.map (·.request)) = (log turns, t) := by
  induction h with
  | nil s => rfl
  | @cons s t u r left turns hserve _ ih =>
    obtain ⟨-, rfl⟩ := hserve.adds_up
    rw [List.map_cons, replay, ih]
    rfl

theorem History.covered (h : History s turns t) : ∀ turn ∈ turns, turn.Covered := by
  induction h with
  | nil s => simp
  | cons hserve _ ih =>
    intro turn hturn
    rcases List.mem_cons.mp hturn with rfl | hturn
    · exact hserve.adds_up.1
    · exact ih turn hturn

theorem stats_replay (s : Session) (requests : List Request) :
    (s.replay requests).2.stats = s.stats + ((s.replay requests).1.map Entry.work).sum := by
  induction requests generalizing s with
  | nil => simp [replay]
  | cons r rest ih => simp [replay, ih, next, add_assoc]

/-- The statistics grow by what the completed eliminations of the history are worth. -/
theorem History.stats_eq (h : History s turns t) :
    t.stats = s.stats +
      ⟨.ofNat (completed turns).length, .ofNat ((completed turns).map (·.before.size)).sum,
        .ofNat ((completed turns).map (·.removed)).sum⟩ := by
  have hstats := s.stats_replay (turns.map (·.request))
  rw [h.replay_eq] at hstats
  refine hstats.trans (congrArg (s.stats + ·) ?_)
  exact (Report.sum_map_work Entry.before Entry.report (log turns)).trans (Stats.sum_work _ _ _)

/-! ## Each entry -/

theorem mem_entries {e : Entry} (h : e ∈ s.entries r) :
    e.report = (s.eliminate r.options e.before).1 := by
  cases r with
  | setVerify on => cases h
  | setTrace on => cases h
  | eliminate options fn =>
    obtain rfl := List.mem_singleton.mp h
    rfl
  | eliminateAll options funcs =>
    simp only [entries] at h
    split at h
    case isTrue => cases h
    case isFalse =>
      obtain ⟨fn, -, rfl⟩ := List.mem_map.mp h
      rfl

theorem exists_of_mem_log {e : Entry} (h : e ∈ log turns) :
    ∃ (u : Session) (options : List Setting), e.report = (u.eliminate options e.before).1 := by
  obtain ⟨turn, -, he⟩ := List.mem_flatMap.mp h
  exact ⟨turn.session, turn.request.options, mem_entries he⟩

theorem size_eliminate_le (s : Session) (options : List Setting) (fn : Func) :
    (s.eliminate options fn).1.after.size ≤ fn.size := by
  rcases s.eliminate_cases options with ⟨settings, -, h⟩ | ⟨f, -, h⟩
  · rw [h]
    exact settings.size_run_le fn
  · rw [h]
    exact Nat.le_refl _

theorem eliminate_of_error {options : List Setting} {fn : Func} {f : Fault}
    (h : (s.eliminate options fn).1.outcome = .error f) :
    (s.eliminate options fn).1.after = fn := by
  rcases s.eliminate_cases options with ⟨settings, -, hrun⟩ | ⟨g, -, hrun⟩
  · rw [hrun] at h ⊢
    exact Settings.run_of_error h
  · rw [hrun]
    rfl

end Session

/-! ## Events -/

namespace Settings

variable {settings : Settings} {fn : Func}

theorem events_run (htrace : settings.trace = true) (hok : (settings.run fn).outcome = .ok ()) :
    ∃ lost : List Nat, (settings.run fn).events =
      [.start fn.name fn.layout.length fn.size] ++ lost.map .unreachable ++
        [.swept (settings.run fn).after.size (fn.size - (settings.run fn).after.size), .finish] := by
  have hevents : (settings.run fn).events =
      fn.events (settings.run fn).outcome (settings.run fn).after := by
    unfold run at hok ⊢
    cases hcheck : if settings.verify then fn.verify else .ok () with
    | error f =>
      rw [hcheck] at hok
      cases hok
    | ok => simp [htrace]
  refine ⟨if fn.unreachable.length = 0 then [] else [fn.unreachable.length], ?_⟩
  rw [hevents, hok, Func.events]
  by_cases hlost : fn.unreachable.length = 0 <;> simp [hlost]

end Settings

namespace Session

/-- The events of a completed elimination: its start on `after + removed` instructions, maybe a word
on blocks that are not reached, how many instructions stay and how many are gone, and its end. -/
def Entry.Narrated (e : Entry) (after removed : Nat) : Prop :=
  ∃ lost : List Nat, e.report.events =
    [.start e.before.name e.before.layout.length (after + removed)] ++ lost.map .unreachable ++
      [.swept after removed, .finish]

theorem narrated_of_mem_entries {s : Session} {r : Request} {e : Entry} {settings : Settings}
    (hset : Settings.resolve s.defaults r.options = .ok settings) (htrace : settings.trace = true)
    (he : e ∈ s.entries r) (hok : e.report.outcome = .ok ()) :
    e.Narrated e.report.after.size e.removed := by
  have hrun : e.report = settings.run e.before := by
    rw [mem_entries he, eliminate_of_settings hset]
  rw [hrun] at hok
  obtain ⟨lost, hevents⟩ := Settings.events_run htrace hok
  have hle := settings.size_run_le e.before
  refine ⟨lost, ?_⟩
  rw [Entry.removed, hrun, hevents, Nat.cast_sub hle, Nat.add_sub_cancel' hle]

end Session

/-! ## Without events -/

/-- Whether the setting is about the recording of events. -/
def Setting.isTrace : Setting → Bool
  | trace _ => true
  | _ => false

/-- The options without those that are about the recording of events. -/
def Setting.untraced (options : List Setting) : List Setting :=
  options.filter fun o => !o.isTrace

def Settings.untraced (s : Settings) : Settings := { s with trace := false }

def Report.untraced (r : Report) : Report := { r with events := [] }

namespace Settings

theorem set_maxWorkers_untraced (s : Settings) (n : Int) :
    s.untraced.set (.maxWorkers n) = (s.set (.maxWorkers n)).map untraced := by
  by_cases hn : 1 ≤ n ∧ n ≤ Environment.maxCount
  · simp only [set, if_pos hn]
    rfl
  · simp only [set, if_neg hn]
    rfl

theorem foldlM_set_untraced (options : List Setting) (s : Settings) :
    (Setting.untraced options).foldlM set s.untraced = (options.foldlM set s).map untraced := by
  induction options generalizing s with
  | nil => rfl
  | cons o rest ih =>
    cases o with
    | trace on => exact ih { s with trace := on }
    | oracle o => exact ih { s with oracle := o }
    | constCallees names => exact ih { s with oracle := some (ConstSet.ofList names).oracle }
    | verify on => exact ih { s with verify := on }
    | maxWorkers n =>
      show (Setting.maxWorkers n :: Setting.untraced rest).foldlM set s.untraced = _
      rw [List.foldlM_cons, List.foldlM_cons, set_maxWorkers_untraced]
      cases s.set (.maxWorkers n) with
      | error f => rfl
      | ok next => exact ih next

theorem resolve_untraced (d : Defaults) (options : List Setting) :
    resolve { d with trace := false } (Setting.untraced options) =
      (resolve d options).map untraced :=
  foldlM_set_untraced options (ofDefaults d)

theorem run_untraced (settings : Settings) (fn : Func) :
    settings.untraced.run fn = (settings.run fn).untraced := by
  have hcheck : (if settings.untraced.verify then fn.verify else .ok ()) =
      if settings.verify then fn.verify else .ok () := rfl
  unfold run Report.untraced
  rw [hcheck]
  cases if settings.verify then fn.verify else .ok () <;> rfl

end Settings

namespace Session

/-- The session with the recording of events turned off. -/
def untraced (s : Session) : Session := s.setTrace false

def Entry.untraced (e : Entry) : Entry := { e with report := e.report.untraced }

/-- The request without what is about the recording of events, if anything is left. -/
def Request.untraced : Request → Option Request
  | setVerify on => some (.setVerify on)
  | setTrace _ => none
  | eliminate options fn => some (.eliminate (Setting.untraced options) fn)
  | eliminateAll options funcs => some (.eliminateAll (Setting.untraced options) funcs)

theorem eliminate_untraced (s : Session) (options : List Setting) (fn : Func) :
    (s.untraced.eliminate (Setting.untraced options) fn).1 =
      (s.eliminate options fn).1.untraced := by
  have hset : Settings.resolve s.untraced.defaults (Setting.untraced options) =
      (Settings.resolve s.defaults options).map Settings.untraced :=
    Settings.resolve_untraced s.defaults options
  unfold Session.eliminate
  rw [hset]
  cases Settings.resolve s.defaults options with
  | error f => rfl
  | ok settings => exact settings.run_untraced fn

theorem entries_untraced (s : Session) {r r' : Request} (h : r.untraced = some r') :
    s.untraced.entries r' = (s.entries r).map Entry.untraced := by
  cases r with
  | setVerify on =>
    cases h
    rfl
  | setTrace on => cases h
  | eliminate options fn =>
    cases h
    simp [entries, eliminate_untraced, Entry.untraced]
  | eliminateAll options funcs =>
    cases h
    by_cases hgap : none ∈ funcs <;>
      simp [entries, hgap, eliminate_untraced, Entry.untraced]

theorem next_untraced (s : Session) {r r' : Request} (h : r.untraced = some r') :
    s.untraced.next r' = (s.next r).untraced := by
  have hwork : (s.untraced.entries r').map Entry.work = (s.entries r).map Entry.work := by
    rw [entries_untraced s h, List.map_map]
    rfl
  unfold next
  rw [hwork]
  cases r <;> cases h <;> rfl

theorem next_untraced_of_none (s : Session) {r : Request} (h : r.untraced = none) :
    s.entries r = [] ∧ (s.next r).untraced = s.untraced := by
  cases r with
  | setTrace on => simp [next, entries, untraced, Session.setTrace, Request.adjust]
  | _ => cases h

/-- **Without the recording of events all else comes out the same.** -/
theorem replay_untraced (s : Session) (requests : List Request) :
    s.untraced.replay (requests.filterMap Request.untraced) =
      ((s.replay requests).1.map Entry.untraced, (s.replay requests).2.untraced) := by
  induction requests generalizing s with
  | nil => rfl
  | cons r rest ih =>
    cases hr : r.untraced with
    | none =>
      obtain ⟨hentries, hnext⟩ := s.next_untraced_of_none hr
      rw [List.filterMap_cons_none hr, ← hnext, ih, replay, hentries]
      rfl
    | some r' =>
      rw [List.filterMap_cons_some hr, replay, replay, s.next_untraced hr, ih,
        s.entries_untraced hr, List.map_append]

/-! ## The statistics account for the work done -/

/-- The history that leads from one session to the other is accounted for. -/
structure Accounts (s t : Session) (turns : List Turn) : Prop where
  funcs : t.stats.funcs.toNat = s.stats.funcs.toNat + (completed turns).length
  instrs : t.stats.instrs.toNat =
    s.stats.instrs.toNat + ((completed turns).map (·.before.size)).sum
  removed : t.stats.removed.toNat = s.stats.removed.toNat + ((completed turns).map (·.removed)).sum
  /-- No function grows, so that the number of instructions it lost is a number. -/
  shrinks : ∀ e ∈ log turns, e.report.after.size ≤ e.before.size
  /-- A function on which the elimination fails is as it was. -/
  unchanged : ∀ e ∈ log turns, ∀ f, e.report.outcome = .error f → e.report.after = e.before
  removed_le : s.stats.removed ≤ s.stats.instrs → t.stats.removed ≤ t.stats.instrs
  /-- The entries speak of the functions that were asked about and of what was left of them. -/
  covered : ∀ turn ∈ turns, turn.Covered
  /-- Where events are recorded, they give the numbers that are counted. -/
  narrated : ∀ turn ∈ turns, ∀ settings,
    Settings.resolve turn.session.defaults turn.request.options = .ok settings →
    settings.trace = true → ∀ e ∈ turn.entries, e.report.outcome = .ok () →
      e.Narrated e.report.after.size e.removed

/-- A counter does not wrap as long as the total stays below `2 ^ 63`. -/
theorem toNat_add_ofNat {a : UInt64} {n : Nat} (h : a.toNat + n < 2 ^ 63) :
    (a + .ofNat n).toNat = a.toNat + n := by
  rw [UInt64.toNat_add, UInt64.toNat_ofNat']
  omega

/-- **The statistics account for the work done.** As long as the totals stay below `2 ^ 63`, any
history is accounted for. Another history in which the same is asked, apart from the recording of
events, does the same to every function and ends with the same statistics. -/
theorem stats_account {s t : Session} {turns : List Turn} (h : History s turns t)
    (hfuncs : s.stats.funcs.toNat + (completed turns).length < 2 ^ 63)
    (hinstrs : s.stats.instrs.toNat + ((completed turns).map (·.before.size)).sum < 2 ^ 63)
    (hremoved : s.stats.removed.toNat + ((completed turns).map (·.removed)).sum < 2 ^ 63) :
    Accounts s t turns ∧
    ∀ s' turns' t', History s' turns' t' → s'.untraced = s.untraced →
      turns'.filterMap (·.request.untraced) = turns.filterMap (·.request.untraced) →
      t'.stats = t.stats ∧ (log turns').map Entry.untraced = (log turns).map Entry.untraced := by
  have hstats := h.stats_eq
  have hshrinks : ∀ e ∈ log turns, e.report.after.size ≤ e.before.size := by
    intro e he
    obtain ⟨u, options, hreport⟩ := exists_of_mem_log he
    rw [hreport]
    exact u.size_eliminate_le options e.before
  have hfewer : ((completed turns).map (·.removed)).sum ≤
      ((completed turns).map (·.before.size)).sum :=
    List.sum_le_sum fun e _ => Nat.sub_le _ _
  have hF : t.stats.funcs.toNat = s.stats.funcs.toNat + (completed turns).length := by
    rw [hstats]
    exact toNat_add_ofNat hfuncs
  have hI : t.stats.instrs.toNat =
      s.stats.instrs.toNat + ((completed turns).map (·.before.size)).sum := by
    rw [hstats]
    exact toNat_add_ofNat hinstrs
  have hR : t.stats.removed.toNat =
      s.stats.removed.toNat + ((completed turns).map (·.removed)).sum := by
    rw [hstats]
    exact toNat_add_ofNat hremoved
  refine ⟨⟨hF, hI, hR, hshrinks, fun e he f hf => ?_, fun hle => ?_, h.covered, ?_⟩, ?_⟩
  · obtain ⟨u, options, hreport⟩ := exists_of_mem_log he
    rw [hreport] at hf ⊢
    exact eliminate_of_error hf
  · rw [UInt64.le_iff_toNat_le] at hle ⊢
    omega
  · intro turn _ settings hset htrace e he hok
    exact narrated_of_mem_entries hset htrace he hok
  · intro s' turns' t' h' hsame hasked
    have hreplay := s.replay_untraced (turns.map (·.request))
    have hreplay' := s'.replay_untraced (turns'.map (·.request))
    rw [h.replay_eq, List.filterMap_map] at hreplay
    rw [h'.replay_eq, List.filterMap_map, hsame] at hreplay'
    have heq := (hreplay'.symm.trans (congrArg _ hasked)).trans hreplay
    exact ⟨congrArg (fun x => x.2.stats) heq, congrArg Prod.fst heq⟩

/-- Events are recorded for a while. One elimination is refused for its number of workers, a batch for
a gap, and in another batch one of two functions fails. -/
theorem busyDay_accounts :
    ∃ turns t, History (start .standard) turns t ∧
      Accounts (start .standard) t turns ∧
      turns.map (·.entries.length) = [0, 1, 0, 1, 2, 0] ∧
      t.stats.funcs.toNat = 2 ∧ t.stats.instrs.toNat = 28 ∧ t.stats.removed.toNat = 14 := by
  have hday : History (start .standard) _ _ :=
    .cons (.setTrace true) <|
    .cons (.eliminate [.constCallees ["len"]] .tangle) <|
    .cons (.setTrace false) <|
    .cons (.eliminate [.maxWorkers 0] .tangle) <|
    .cons (.inOrder [1, 0] [.constCallees ["len"]] [some .tangle, some stray] (by decide)) <|
    .cons (.inOrder [0, 1] [] [some stray, none] (by decide)) <|
    .nil _
  obtain ⟨haccounts, -⟩ := stats_account hday (by cbv) (by cbv) (by cbv)
  refine ⟨_, _, hday, haccounts, by cbv, ?_, ?_, ?_⟩
  · rw [haccounts.funcs]
    cbv
  · rw [haccounts.instrs]
    cbv
  · rw [haccounts.removed]
    cbv

end Session

end Deadwood
