import Deadwood.Proofs.Elimination

/-!
# Marking, step by step

A marking visits one instruction after the other, and then takes one value after the other off the
worklist. A `Point` is where it stands between two of these steps, and tells in addition which values
it has taken off so far. The points that a marking goes through are those that steps lead to from
its start, and it succeeds exactly if they lead to one where nothing is left to do
(`run_eq_ok_iff`).

**Theorem (`marking_invariant`).** Along the steps, marks only ever grow: from unmarked over
provisional to necessary. At every point, what waits on the worklist is a value that an instruction
marked necessary refers to, only const calls are provisional, and each value that an instruction
marked necessary refers to still waits, or has been taken off and its definition is marked
necessary. Between the two phases, exactly the roots are necessary and exactly the const calls are
provisional.

The invariant is `Coherent`. Both phases change a point in one of three ways: a value is taken off
and nothing else happens, an instruction of the code is marked necessary and its references go on the
worklist, or a const call is marked provisional. The last could lower a mark if it came after a
propagation. So `Coherent` also says that as long as there are instructions to visit, only roots are
necessary.
-/

namespace Deadwood

/-- How much a mark says. -/
def Mark.rank : Mark → Nat
  | unmarked => 0
  | provisional => 1
  | necessary => 2

theorem Mark.eq_necessary_of_rank_le {m : Mark} (h : Mark.necessary.rank ≤ m.rank) :
    m = .necessary := by
  revert h
  cases m <;> decide

theorem Op.exists_call_of_isConstCall {oracle : Oracle} {op : Op}
    (h : op.isConstCall oracle = true) :
    ∃ dst callee args, op = .call dst callee args ∧ oracle.isConst callee = .ok true := by
  cases op with
  | call dst callee args =>
    refine ⟨dst, callee, args, rfl, ?_⟩
    simp only [Op.isConstCall, Oracle.vouches] at h
    split at h
    case h_1 hconst => exact hconst
    case h_2 => cases h
  | _ => cases h

namespace Marking

/-! ## Points and steps -/

/-- Where a marking stands between two steps. -/
structure Point where
  /-- The instructions that the first phase has still to visit. -/
  todo : List Instr
  state : State
  /-- The values taken off the worklist so far, the latest first. -/
  taken : List Value

namespace Point

/-- Where the marking of a code starts. -/
def start (code : List Instr) : Point := ⟨code, State.initial, []⟩

/-- The mark of an instruction at this point. -/
def mark (p : Point) (i : Instr) : Mark := p.state.marks.get i

/-- How the marking of a function will end from here. -/
def outlook (oracle : Oracle) (fn : Func) (p : Point) : Except Fault Marks := do
  let s ← p.todo.foldlM (scanInstr oracle) p.state
  match propagate fn.code s with
  | .ok t => return t.marks
  | .error v => throw (.violation (.undefined fn.name v))

end Point

/-- One step: the next instruction is visited or, when there is none left, the next value is taken
off the worklist. -/
inductive Step (oracle : Oracle) (code : List Instr) : Point → Point → Prop
  | visit {i : Instr} {rest : List Instr} {s t : State} {taken : List Value} :
      scanInstr oracle s i = .ok t → Step oracle code ⟨i :: rest, s, taken⟩ ⟨rest, t, taken⟩
  | take {marks : Marks} {v : Value} {rest : List Value} {t : State} {taken : List Value} :
      pop code marks v rest = .ok t →
        Step oracle code ⟨[], ⟨marks, v :: rest⟩, taken⟩ ⟨[], t, v :: taken⟩

/-- Some steps lead from one point to the other. -/
abbrev Reaches (oracle : Oracle) (code : List Instr) : Point → Point → Prop :=
  Relation.ReflTransGen (Step oracle code)

variable {oracle : Oracle} {code : List Instr} {p q : Point}

/-! ## The steps are those of a marking -/

theorem reaches_of_scan {rest : List Instr} {s t : State} {taken : List Value}
    (h : rest.foldlM (scanInstr oracle) s = .ok t) :
    Reaches oracle code ⟨rest, s, taken⟩ ⟨[], t, taken⟩ := by
  induction rest generalizing s with
  | nil =>
    cases h
    exact .refl
  | cons i rest ih =>
    rw [List.foldlM_cons] at h
    cases hi : scanInstr oracle s i with
    | error f =>
      rw [hi] at h
      cases h
    | ok u =>
      rw [hi] at h
      exact (ih h).head (.visit hi)

/-- Propagation takes values off until the worklist is empty, or nothing defines the next value. -/
theorem propagate_reaches (oracle : Oracle) {code : List Instr} (s : State) (taken : List Value) :
    ∃ t later, Reaches oracle code ⟨[], s, taken⟩ ⟨[], t, later⟩ ∧
      (propagate code s = .ok t ∧ t.work = [] ∨
        ∃ v rest, propagate code s = .error v ∧ t.work = v :: rest ∧ Undefined code v) := by
  fun_induction propagate code s generalizing taken with
  | case1 marks => exact ⟨⟨marks, []⟩, taken, .refl, Or.inl ⟨rfl, rfl⟩⟩
  | case2 marks v rest u hpop =>
    obtain ⟨rfl, hundef⟩ := pop_eq_error hpop
    exact ⟨⟨marks, u :: rest⟩, taken, .refl, Or.inr ⟨u, rest, rfl, rfl, hundef⟩⟩
  | case3 marks v rest u hpop ih =>
    obtain ⟨t, later, hreach, hend⟩ := ih (v :: taken)
    exact ⟨t, later, hreach.head (.take hpop), hend⟩

theorem reaches_of_propagate (oracle : Oracle) {s t : State} (h : propagate code s = .ok t)
    (taken : List Value) :
    ∃ later, Reaches oracle code ⟨[], s, taken⟩ ⟨[], ⟨t.marks, []⟩, later⟩ := by
  obtain ⟨u, later, hreach, ⟨hok, hwork⟩ | ⟨v, rest, herror, -⟩⟩ := propagate_reaches oracle s taken
  · obtain rfl := Except.ok.inj (h.symm.trans hok)
    exact ⟨later, hwork ▸ hreach⟩
  · rw [h] at herror
    cases herror

/-- A step does not change how the marking will end. -/
theorem Step.outlook_eq {fn : Func} (h : Step oracle fn.code p q) :
    q.outlook oracle fn = p.outlook oracle fn := by
  cases h with
  | visit hi =>
    unfold Point.outlook
    rw [List.foldlM_cons, hi]
    rfl
  | @take marks v rest t taken hpop =>
    have hstep : propagate fn.code ⟨marks, v :: rest⟩ = propagate fn.code t := by
      rw [propagate]
      split
      case h_1 u hu =>
        rw [hpop] at hu
        cases hu
      case h_2 u hu =>
        rw [hpop] at hu
        cases hu
        rfl
    simp only [Point.outlook, List.foldlM_nil, pure_bind, hstep]

theorem Reaches.outlook_eq {fn : Func} (h : Reaches oracle fn.code p q) :
    q.outlook oracle fn = p.outlook oracle fn := by
  induction h with
  | refl => rfl
  | tail _ hstep ih => exact hstep.outlook_eq.trans ih

/-- **A marking succeeds exactly if its steps lead to a point where nothing is left to do.** -/
theorem run_eq_ok_iff {fn : Func} {marks : Marks} :
    run oracle fn = .ok marks ↔
      ∃ taken, Reaches oracle fn.code (.start fn.code) ⟨[], ⟨marks, []⟩, taken⟩ := by
  constructor
  · intro h
    cases hs : scan oracle fn.code with
    | error f =>
      rw [run, hs] at h
      cases h
    | ok s =>
      rw [run_eq_of_scan hs] at h
      split at h
      case h_2 => cases h
      case h_1 t ht =>
        cases h
        obtain ⟨taken, hreach⟩ := reaches_of_propagate oracle ht []
        exact ⟨taken, (reaches_of_scan hs).trans hreach⟩
  · rintro ⟨taken, hreach⟩
    have hend : run oracle fn = Point.outlook oracle fn ⟨[], ⟨marks, []⟩, taken⟩ :=
      hreach.outlook_eq.symm
    rw [hend, Point.outlook, List.foldlM_nil, pure_bind, propagate]
    rfl

/-! ## What holds at every point -/

/-- What holds of a marking between any two steps. -/
structure Coherent (oracle : Oracle) (code : List Instr) (p : Point) : Prop where
  /-- What is still to be visited belongs to the code. -/
  within : ∀ i ∈ p.todo, i ∈ code
  /-- As long as there is something to visit, nothing has been propagated. -/
  first : p.todo ≠ [] → ∀ i, p.mark i = .necessary → i.op.isRoot oracle = true
  asked : ∀ v ∈ p.state.work, ∃ i ∈ code, p.mark i = .necessary ∧ v ∈ i.op.refs
  provisional : ∀ i, p.mark i = .provisional → i ∈ code ∧ i.op.isConstCall oracle = true
  /-- What an instruction marked necessary refers to waits, or is done with. -/
  settled : ∀ i, p.mark i = .necessary → ∀ v ∈ i.op.refs,
    v ∈ p.state.work ∨ v ∈ p.taken ∧ ∃ j, LastDefines code v j ∧ p.mark j = .necessary

theorem coherent_start (oracle : Oracle) (code : List Instr) :
    Coherent oracle code (.start code) where
  within _ hi := hi
  first _ _ hi := by cases hi
  asked _ hv := by cases hv
  provisional _ hi := by cases hi
  settled _ hi := by cases hi

theorem mark_require (todo : List Instr) (s : State) (taken : List Value) (i j : Instr) :
    Point.mark ⟨todo, s.require i, taken⟩ j =
      if j = i then .necessary else Point.mark ⟨todo, s, taken⟩ j :=
  Marks.get_set s.marks i j .necessary

namespace Coherent

variable {todo : List Instr} {s : State} {taken : List Value} {i : Instr}

theorem tail (h : Coherent oracle code ⟨i :: todo, s, taken⟩) :
    Coherent oracle code ⟨todo, s, taken⟩ where
  within j hj := h.within j (List.mem_cons_of_mem i hj)
  first _ := h.first (List.cons_ne_nil i todo)
  asked := h.asked
  provisional := h.provisional
  settled := h.settled

/-- An instruction of the code may be marked necessary, but only a root if there is something left
to visit. -/
theorem require (h : Coherent oracle code ⟨todo, s, taken⟩) (hi : i ∈ code)
    (hroot : todo ≠ [] → i.op.isRoot oracle = true) :
    Coherent oracle code ⟨todo, s.require i, taken⟩ where
  within := h.within
  first hne j hj := by
    rw [mark_require] at hj
    split at hj
    case isTrue hji => exact hji ▸ hroot hne
    case isFalse => exact h.first hne j hj
  asked v hv := by
    rcases List.mem_append.mp hv with hv | hv
    · exact ⟨i, hi, by rw [mark_require, if_pos rfl], List.mem_reverse.mp hv⟩
    · obtain ⟨j, hj, hmark, hv⟩ := h.asked v hv
      refine ⟨j, hj, ?_, hv⟩
      rw [mark_require, hmark, ite_self]
  provisional j hj := by
    rw [mark_require] at hj
    split at hj
    case isTrue => cases hj
    case isFalse => exact h.provisional j hj
  settled j hj v hv := by
    rw [mark_require] at hj
    split at hj
    case isTrue hji =>
      subst hji
      exact Or.inl (List.mem_append_left _ (List.mem_reverse.mpr hv))
    case isFalse =>
      rcases h.settled j hj v hv with hw | ⟨ht, k, hk, hmark⟩
      · exact Or.inl (List.mem_append_right _ hw)
      · refine Or.inr ⟨ht, k, hk, ?_⟩
        rw [mark_require, hmark, ite_self]

/-- A const call that is not necessary may be marked provisional. -/
theorem defer (h : Coherent oracle code ⟨todo, s, taken⟩) (hi : i ∈ code)
    (hconst : i.op.isConstCall oracle = true) (hmark : s.marks.get i ≠ .necessary) :
    Coherent oracle code ⟨todo, { s with marks := s.marks.set i .provisional }, taken⟩ := by
  have hkept : ∀ j, Point.mark ⟨todo, { s with marks := s.marks.set i .provisional }, taken⟩ j =
      .necessary ↔ s.marks.get j = .necessary := by
    intro j
    rw [Point.mark, Marks.get_set]
    by_cases hj : j = i <;> simp [hj, hmark]
  refine ⟨h.within, fun hne j hj => h.first hne j ((hkept j).mp hj), fun v hv => ?_, fun j hj => ?_,
    fun j hj v hv => ?_⟩
  · obtain ⟨j, hj, hnec, hv⟩ := h.asked v hv
    exact ⟨j, hj, (hkept j).mpr hnec, hv⟩
  · rw [Point.mark, Marks.get_set] at hj
    split at hj
    case isTrue hji => exact hji ▸ ⟨hi, hconst⟩
    case isFalse => exact h.provisional j hj
  · rcases h.settled j ((hkept j).mp hj) v hv with hw | ⟨ht, k, hk, hnec⟩
    · exact Or.inl hw
    · exact Or.inr ⟨ht, k, hk, (hkept k).mpr hnec⟩

/-- A value whose definition is necessary may be taken off the worklist. -/
theorem discharge {marks : Marks} {work rest : List Value} {v : Value}
    (h : Coherent oracle code ⟨todo, ⟨marks, work⟩, taken⟩) (hdef : LastDefines code v i)
    (hmark : marks.get i = .necessary) (hrest : ∀ u ∈ rest, u ∈ work)
    (hwork : ∀ u ∈ work, u = v ∨ u ∈ rest) :
    Coherent oracle code ⟨todo, ⟨marks, rest⟩, v :: taken⟩ where
  within := h.within
  first := h.first
  asked u hu := h.asked u (hrest u hu)
  provisional := h.provisional
  settled j hj u hu := by
    rcases h.settled j hj u hu with hw | ⟨ht, hk⟩
    · rcases hwork u hw with rfl | hw
      · exact Or.inr ⟨List.mem_cons_self, i, hdef, hmark⟩
      · exact Or.inl hw
    · exact Or.inr ⟨List.mem_cons_of_mem v ht, hk⟩

end Coherent

/-- A visit marks a root necessary and a const call provisional, and passes over all else. -/
theorem visit_cases {s t : State} {i : Instr} (h : scanInstr oracle s i = .ok t) :
    i.op.isRoot oracle = true ∧ t = s.require i ∨
    i.op.isRoot oracle = false ∧ i.op.isConstCall oracle = true ∧
      t = { s with marks := s.marks.set i .provisional } ∨
    t = s := by
  rw [eq_visit_of_scanInstr h]
  unfold State.visit firstMark
  cases hroot : i.op.isRoot oracle with
  | true => exact Or.inl ⟨rfl, rfl⟩
  | false =>
    cases hconst : i.op.isConstCall oracle with
    | true => exact Or.inr (Or.inl ⟨rfl, rfl, rfl⟩)
    | false => exact Or.inr (Or.inr rfl)

/-- A mark is set to provisional only where it was not necessary. -/
theorem Coherent.mark_ne_necessary {i : Instr} {rest : List Instr} {s : State} {taken : List Value}
    (h : Coherent oracle code ⟨i :: rest, s, taken⟩) (hroot : i.op.isRoot oracle = false) :
    s.marks.get i ≠ .necessary := by
  intro hmark
  have := h.first (List.cons_ne_nil i rest) i hmark
  rw [hroot] at this
  cases this

/-- **Every step keeps a marking coherent.** -/
theorem Coherent.step (h : Coherent oracle code p) (hstep : Step oracle code p q) :
    Coherent oracle code q := by
  cases hstep with
  | @visit i rest s t taken hi =>
    have hmem : i ∈ code := h.within i List.mem_cons_self
    rcases visit_cases hi with ⟨hroot, rfl⟩ | ⟨hroot, hconst, rfl⟩ | rfl
    · exact h.tail.require hmem fun _ => hroot
    · exact h.tail.defer hmem hconst (h.mark_ne_necessary hroot)
    · exact h.tail
  | @take marks v rest t taken hpop =>
    obtain ⟨i, hdef, ⟨hk, rfl⟩ | ⟨-, rfl⟩⟩ := pop_eq_ok hpop
    · refine h.discharge hdef (of_decide_eq_true hk) ?_ ?_
      · intro u hu
        exact List.mem_cons_of_mem v hu
      · intro u hu
        exact List.mem_cons.mp hu
    · -- The value stays on the worklist while its definition is marked, and is taken off then.
      have hmarked := h.require hdef.mem fun hne => absurd rfl hne
      have hnec : (marks.set i .necessary).get i = .necessary := by rw [Marks.get_set, if_pos rfl]
      refine hmarked.discharge hdef hnec ?_ ?_
      · intro u hu
        rcases List.mem_append.mp hu with hu | hu
        · exact List.mem_append_left _ hu
        · exact List.mem_append_right _ (List.mem_cons_of_mem v hu)
      · intro u hu
        rcases List.mem_append.mp hu with hu | hu
        · exact Or.inr (List.mem_append_left _ hu)
        · rcases List.mem_cons.mp hu with rfl | hu
          · exact Or.inl rfl
          · exact Or.inr (List.mem_append_right _ hu)

theorem Coherent.reaches (h : Coherent oracle code p) (hreach : Reaches oracle code p q) :
    Coherent oracle code q := by
  induction hreach with
  | refl => exact h
  | tail _ hstep ih => exact ih.step hstep

/-! ## Marks only grow -/

theorem rank_require_le (s : State) (i j : Instr) :
    (s.marks.get j).rank ≤ ((s.require i).marks.get j).rank := by
  rw [State.require, Marks.get_set]
  split
  · cases s.marks.get j <;> decide
  · exact Nat.le_refl _

/-- **A step lowers no mark.** -/
theorem Coherent.rank_step_le (h : Coherent oracle code p) (hstep : Step oracle code p q)
    (j : Instr) : (p.mark j).rank ≤ (q.mark j).rank := by
  cases hstep with
  | @visit i rest s t taken hi =>
    rcases visit_cases hi with ⟨-, rfl⟩ | ⟨hroot, -, rfl⟩ | rfl
    · exact rank_require_le s i j
    · have hmark := h.mark_ne_necessary hroot
      show (s.marks.get j).rank ≤ ((s.marks.set i .provisional).get j).rank
      rw [Marks.get_set]
      split
      case isTrue hji =>
        subst hji
        revert hmark
        cases s.marks.get j <;> decide
      case isFalse => exact Nat.le_refl _
    · exact Nat.le_refl _
  | @take marks v rest t taken hpop =>
    obtain ⟨i, -, ⟨-, rfl⟩ | ⟨-, rfl⟩⟩ := pop_eq_ok hpop
    · exact Nat.le_refl _
    · exact rank_require_le ⟨marks, rest⟩ i j

theorem Coherent.rank_le (h : Coherent oracle code p) (hreach : Reaches oracle code p q)
    (j : Instr) : (p.mark j).rank ≤ (q.mark j).rank := by
  induction hreach with
  | refl => exact Nat.le_refl _
  | tail hbefore hstep ih => exact Nat.le_trans ih ((h.reaches hbefore).rank_step_le hstep j)

/-! ## The invariant of a marking -/

theorem firstMark_eq_provisional_iff {op : Op} :
    firstMark oracle op = .provisional ↔ op.isConstCall oracle = true := by
  unfold firstMark
  cases op with
  | call dst callee args => cases h : oracle.vouches callee <;> simp [Op.isRoot, Op.isConstCall, h]
  | _ => simp [Op.isRoot, Op.isConstCall]

theorem Scanned.get_eq_provisional_iff {s : State} (h : Scanned oracle code s) (i : Instr) :
    s.marks.get i = .provisional ↔ i ∈ code ∧ i.op.isConstCall oracle = true := by
  by_cases hi : i ∈ code
  · rw [h.marked i hi, firstMark_eq_provisional_iff]
    simp [hi]
  · rw [h.unmarked i hi]
    simp [hi]

/-- **The invariant of a marking.** A mark that is necessary stays so, and one that is provisional
is never taken back. At every point, the worklist holds values that instructions marked necessary
refer to, the provisional instructions are calls to const callees, and each value that an instruction
marked necessary refers to waits on the worklist, or was taken off and its definition is marked
necessary. After the first phase, which is completed if no instruction has a fault, exactly the roots
are necessary and exactly the const calls provisional. The marking succeeds exactly if its steps lead
to an empty worklist. -/
theorem marking_invariant (oracle : Oracle) (fn : Func) :
    (∀ p q, Reaches oracle fn.code (.start fn.code) p → Reaches oracle fn.code p q → ∀ i,
      (p.mark i = .necessary → q.mark i = .necessary) ∧
      (p.mark i = .provisional → q.mark i ≠ .unmarked)) ∧
    (∀ p, Reaches oracle fn.code (.start fn.code) p →
      (∀ v ∈ p.state.work, v.IsSome ∧ ∃ i ∈ fn.code, p.mark i = .necessary ∧ v ∈ i.op.refs) ∧
      (∀ i, p.mark i = .provisional → ∃ dst callee args,
        i.op = .call dst callee args ∧ oracle.isConst callee = .ok true) ∧
      ∀ i, p.mark i = .necessary → ∀ v ∈ i.op.refs, v ∈ p.state.work ∨
        v ∈ p.taken ∧ ∃ j, LastDefines fn.code v j ∧ p.mark j = .necessary) ∧
    (∀ s, scan oracle fn.code = .ok s →
      Reaches oracle fn.code (.start fn.code) ⟨[], s, []⟩ ∧ ∀ i,
        (s.marks.get i = .necessary ↔ i ∈ fn.code ∧ i.op.isRoot oracle = true) ∧
        (s.marks.get i = .provisional ↔ i ∈ fn.code ∧ i.op.isConstCall oracle = true)) ∧
    ((∀ i ∈ fn.code, i.op.fault? oracle = none) → ∃ s, scan oracle fn.code = .ok s) ∧
    ∀ marks, run oracle fn = .ok marks ↔
      ∃ taken, Reaches oracle fn.code (.start fn.code) ⟨[], ⟨marks, []⟩, taken⟩ := by
  have hcoherent : ∀ p, Reaches oracle fn.code (.start fn.code) p → Coherent oracle fn.code p :=
    fun p hp => (coherent_start oracle fn.code).reaches hp
  refine ⟨fun p q hp hq i => ?_, fun p hp => ⟨fun v hv => ?_, fun i hi => ?_,
    (hcoherent p hp).settled⟩, fun s hs => ⟨reaches_of_scan hs, fun i => ⟨?_, ?_⟩⟩, scan_isOk,
    fun marks => run_eq_ok_iff⟩
  · have hrank := (hcoherent p hp).rank_le hq i
    constructor
    · intro hi
      rw [hi] at hrank
      exact Mark.eq_necessary_of_rank_le hrank
    · intro hi hq
      rw [hi, hq] at hrank
      exact absurd hrank (by decide)
  · obtain ⟨i, hi, hmark, hv⟩ := (hcoherent p hp).asked v hv
    exact ⟨Op.isSome_of_mem_refs hv, i, hi, hmark, hv⟩
  · exact Op.exists_call_of_isConstCall ((hcoherent p hp).provisional i hi).2
  · rw [← (scanned_of_scan hs).keeps_iff i, Marks.keeps, decide_eq_true_iff]
  · exact (scanned_of_scan hs).get_eq_provisional_iff i

/-- A const call that the tangle needs is provisional after the first phase and necessary in the end,
when the value it refers to has been taken off the worklist. -/
theorem tangle_call_promoted :
    let oracle := (ConstSet.ofList ["len"]).oracle
    let code := Func.tangle.code
    let call : Instr := ⟨2, .call ⟨3⟩ (.named "len") [.ref ⟨1⟩]⟩
    ∃ s marks taken, Reaches oracle code (.start code) ⟨[], s, []⟩ ∧
      Reaches oracle code (.start code) ⟨[], ⟨marks, []⟩, taken⟩ ∧
      s.marks.get call = .provisional ∧ marks.get call = .necessary ∧ ⟨1⟩ ∈ taken := by
  intro oracle code call
  obtain ⟨-, hpoints, hfirst, hphase, hrun⟩ := marking_invariant oracle Func.tangle
  obtain ⟨s, hs⟩ := hphase (by decide)
  obtain ⟨hreach, hmarks⟩ := hfirst s hs
  have hend : (run oracle Func.tangle).toOption.map (·.get call) = some .necessary := by cbv
  cases hmarked : run oracle Func.tangle with
  | error f =>
    rw [hmarked] at hend
    cases hend
  | ok marks =>
    have hcall : marks.get call = .necessary := by
      rw [hmarked] at hend
      exact Option.some.inj hend
    obtain ⟨taken, htaken⟩ := (hrun marks).mp hmarked
    refine ⟨s, marks, taken, hreach, htaken, (hmarks call).2.mpr (by decide), hcall, ?_⟩
    rcases (hpoints _ htaken).2.2 call hcall ⟨1⟩ (by decide) with hw | ⟨hw, -⟩
    · cases hw
    · exact hw

end Marking

end Deadwood
