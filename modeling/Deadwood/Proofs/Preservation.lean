import Deadwood.Proofs.Execution
import Deadwood.Proofs.Stability

/-!
# Elimination preserves the meaning of a function

**Theorem (`eliminate_preserves_runs`).** Let a function be well-formed and of known instructions
only. Then an elimination succeeds on it, and on every machine the two functions run in step: after
any number of blocks, control is at the same place and the same effects have been seen.

The two runs go through the same blocks, so they are compared at the ends of blocks. Call a value
**kept** if no instruction that was removed defines it. The runs agree on what kept values hold
(`Frame.Agrees`), and this is all that is needed, because

* an instruction that stays refers to kept values only: the definition that counts for a value it
  refers to is necessary as well, and in a well-formed function there is no other definition, so
  both runs do the same (`perform_agrees`);
* an instruction that was removed has no effect and assigns a value that is not kept
  (`perform_dead`).

Nothing is said about the order of blocks or about loops. A merge in a loop that reads what the loop
assigned in the last round is one more instruction that refers to kept values.
-/

namespace Deadwood

/-! ## Runs that agree on some values -/

namespace Env

/-- The environments hold the same for the values of a set. -/
def Agree (kept : Value → Prop) (a b : Env) : Prop := ∀ v, kept v → a v = b v

variable {kept : Value → Prop} {a b : Env}

theorem Agree.read (h : Agree kept a b) {x : Operand} (hx : ∀ v, x.value? = some v → kept v) :
    a.read x = b.read x := by
  unfold Env.read
  cases hv : x.value? with
  | none => rfl
  | some v => exact h v (hx v hv)

theorem Agree.map_read (h : Agree kept a b) {xs : List Operand}
    (hxs : ∀ v ∈ xs.filterMap Operand.value?, kept v) : xs.map a.read = xs.map b.read := by
  refine List.map_congr_left fun x hx => h.read fun v hv => hxs v ?_
  exact List.mem_filterMap.mpr ⟨x, hx, hv⟩

theorem Agree.assign (h : Agree kept a b) (dst : Value) (n : Int) :
    Agree kept (a.assign dst n) (b.assign dst n) := by
  intro v hv
  unfold Env.assign
  split
  · rfl
  · exact h v hv

/-- Assigning a value outside the set changes nothing for the set. -/
theorem agree_assign (a : Env) {dst : Value} (hdst : dst.IsSome → ¬ kept dst) (n : Int) :
    Agree kept (a.assign dst n) a := by
  intro v hv
  unfold Env.assign
  rw [if_neg]
  rintro ⟨rfl, hsome⟩
  exact hdst hsome hv

end Env

/-- Two runs inside a block that differ at most in values outside a set. -/
structure Frame.Agrees (kept : Value → Prop) (f g : Frame) : Prop where
  came : f.came = g.came
  entry : Env.Agree kept f.entry g.entry
  env : Env.Agree kept f.env g.env
  history : f.history = g.history

namespace Frame

variable {kept : Value → Prop} {f g : Frame}

theorem Agrees.assign (h : Agrees kept f g) (dst : Value) {n n' : Int} (hn : n = n') :
    Agrees kept (f.assign dst n) (g.assign dst n') := by
  subst hn
  exact ⟨h.came, h.entry, h.env.assign dst n, h.history⟩

theorem Agrees.emit (h : Agrees kept f g) {e e' : Effect} (he : e = e') :
    Agrees kept (f.emit e) (g.emit e') := by
  subst he
  exact ⟨h.came, h.entry, h.env, congrArg (· ++ [e]) h.history⟩

theorem Agrees.trans {k : Frame} (h : Agrees kept f g) (h' : Agrees kept g k) :
    Agrees kept f k :=
  ⟨h.came.trans h'.came, fun v hv => (h.entry v hv).trans (h'.entry v hv),
    fun v hv => (h.env v hv).trans (h'.env v hv), h.history.trans h'.history⟩

theorem received?_mem {incoming : Incoming} {x : Operand} (h : f.received? incoming = some x) :
    x ∈ incoming.map (·.2) := by
  obtain ⟨p, -, hp⟩ := Option.bind_eq_some_iff.mp h
  clear h
  induction incoming with
  | nil => cases hp
  | cons e rest ih =>
    obtain ⟨q, y⟩ := e
    rw [List.lookup_cons] at hp
    split at hp
    · cases hp
      exact List.mem_cons_self
    · exact List.mem_cons_of_mem _ (ih hp)

theorem Agrees.received (h : Agrees kept f g) {incoming : Incoming} (unassigned : Int)
    (hin : ∀ v ∈ (incoming.map (·.2)).filterMap Operand.value?, kept v) :
    (f.received? incoming).elim unassigned f.entry.read =
      (g.received? incoming).elim unassigned g.entry.read := by
  have hsame : g.received? incoming = f.received? incoming := by
    unfold received?
    rw [h.came]
  rw [hsame]
  cases hx : f.received? incoming with
  | none => rfl
  | some x =>
    refine h.entry.read fun v hv => hin v ?_
    exact List.mem_filterMap.mpr ⟨x, received?_mem hx, hv⟩

end Frame

namespace Machine

variable {kept : Value → Prop} {f g : Frame}

/-- **An operation does the same in runs that agree on the values it refers to.** -/
theorem perform_agrees (m : Machine) {op : Op} (h : Frame.Agrees kept f g)
    (hrefs : ∀ v ∈ op.refs, kept v) :
    (m.perform f op).2 = (m.perform g op).2 ∧
      Frame.Agrees kept (m.perform f op).1 (m.perform g op).1 := by
  cases op with
  | ret results => exact ⟨rfl, h.emit (congrArg _ (h.env.map_read hrefs))⟩
  | copy dst src =>
    refine ⟨rfl, h.assign dst (h.env.read fun v hv => hrefs v ?_)⟩
    simp [Op.refs, Op.uses, Op.uses?, hv]
  | phi dst incoming => exact ⟨rfl, h.assign dst (h.received m.unassigned hrefs)⟩
  | call dst callee args =>
    have hargs : args.map f.env.read = args.map g.env.read := h.env.map_read hrefs
    cases hconst : m.isConst callee with
    | true =>
      simp only [perform, hconst, if_true, hargs, h.history, true_and]
      exact h.assign dst rfl
    | false =>
      simp only [perform, hconst, Bool.false_eq_true, if_false, hargs, h.history, true_and]
      exact (h.assign dst rfl).emit rfl
  | param dst index => exact ⟨rfl, h.assign dst rfl⟩
  | branch cond yes no =>
    have hcond : f.env.read cond = g.env.read cond := h.env.read fun v hv => hrefs v (by
      simp [Op.refs, Op.uses, Op.uses?, hv])
    simp only [perform, hcond, true_and]
    exact h
  | jump target => exact ⟨rfl, h⟩
  | store mem src =>
    have hargs : [mem, src].map f.env.read = [mem, src].map g.env.read := h.env.map_read hrefs
    simp only [List.map_cons, List.map_nil, List.cons.injEq, and_true] at hargs
    simp only [perform, hargs.1, hargs.2, true_and]
    exact h.emit rfl
  | breakpoint => exact ⟨rfl, h.emit rfl⟩
  | unknown text => exact ⟨rfl, h⟩

/-- **An operation without an effect of its own** changes nothing but the value it assigns. -/
theorem perform_dead (m : Machine) (f : Frame) {op : Op}
    (hroot : op.isRoot (.ofRule m.isConst) = false) (hres : ∀ v, op.result? = some v → ¬ kept v) :
    (m.perform f op).2 = none ∧ Frame.Agrees kept (m.perform f op).1 f := by
  have hassign : ∀ {dst : Value} (n : Int), op.def? = some dst →
      Frame.Agrees kept (f.assign dst n) f := by
    intro dst n hdst
    refine ⟨rfl, fun _ _ => rfl, Env.agree_assign f.env (fun hsome => hres dst ?_) n, rfl⟩
    simp [Op.result?, hdst, hsome]
  cases op with
  | copy dst src => exact ⟨rfl, hassign _ rfl⟩
  | phi dst incoming => exact ⟨rfl, hassign _ rfl⟩
  | call dst callee args =>
    have hconst : m.isConst callee = true := by simpa [Op.isRoot] using hroot
    simp only [perform, hconst, if_true, true_and]
    exact hassign _ rfl
  | unknown text => exact ⟨rfl, ⟨rfl, fun _ _ => rfl, fun _ _ => rfl, rfl⟩⟩
  | _ => cases hroot

/-- Runs through a block and through what a sweep leaves of it keep agreeing, and leave it the same
way. -/
theorem performAll_filter (m : Machine) {keep : Instr → Bool} {body : List Instr}
    (hkeep : ∀ i ∈ body, keep i = true → ∀ v ∈ i.op.refs, kept v)
    (hdrop : ∀ i ∈ body, keep i = false →
      i.op.isRoot (.ofRule m.isConst) = false ∧ ∀ v, i.op.result? = some v → ¬ kept v)
    (h : Frame.Agrees kept f g) :
    (m.performAll f body).2 = (m.performAll g (body.filter keep)).2 ∧
      Frame.Agrees kept (m.performAll f body).1 (m.performAll g (body.filter keep)).1 := by
  induction body generalizing f g with
  | nil => exact ⟨rfl, h⟩
  | cons i rest ih =>
    have ih' : ∀ {f g : Frame}, Frame.Agrees kept f g → _ := fun h =>
      ih (fun j hj => hkeep j (List.mem_cons_of_mem i hj))
        (fun j hj => hdrop j (List.mem_cons_of_mem i hj)) h
    cases hi : keep i with
    | true =>
      rw [List.filter_cons_of_pos hi]
      obtain ⟨hexit, hagree⟩ := m.perform_agrees h (hkeep i List.mem_cons_self hi)
      rw [performAll, performAll]
      -- Both leave the block here, or neither does.
      generalize m.perform f i.op = p at hexit hagree
      generalize m.perform g i.op = q at hexit hagree
      obtain ⟨f', e⟩ := p
      obtain ⟨g', e'⟩ := q
      change e = e' at hexit
      subst hexit
      cases e with
      | none => exact ih' hagree
      | some e => exact ⟨rfl, hagree⟩
    | false =>
      rw [List.filter_cons_of_neg (by simp [hi])]
      obtain ⟨hroot, hres⟩ := hdrop i List.mem_cons_self hi
      obtain ⟨hexit, hagree⟩ := m.perform_dead f hroot hres
      rw [performAll]
      generalize m.perform f i.op = p at hexit hagree
      obtain ⟨f', e⟩ := p
      change e = none at hexit
      subst hexit
      exact ih' (hagree.trans h)

end Machine

/-! ## Runs of a function and of what a sweep leaves of it -/

/-- Two runs between blocks that are at the same place and have shown the same, and differ at most
in values outside a set. The place is in the layout. -/
structure Config.Matches (fn : Func) (kept : Value → Prop) (c d : Config) : Prop where
  position : c.position = d.position
  inside : ∀ p, c.position = some p → p.1 ∈ fn.layout
  env : Env.Agree kept c.env d.env
  history : c.history = d.history

/-- What a sweep has to respect so that runs cannot tell the difference. -/
structure Func.Spares (fn : Func) (m : Machine) (keep : Instr → Bool) (kept : Value → Prop) :
    Prop where
  refs : ∀ i ∈ fn.code, keep i = true → ∀ v ∈ i.op.refs, kept v
  dropped : ∀ i ∈ fn.code, keep i = false →
    i.op.isRoot (.ofRule m.isConst) = false ∧ ∀ v, i.op.result? = some v → ¬ kept v

namespace Machine

variable {kept : Value → Prop} {keep : Instr → Bool} {fn : Func}

theorem land_inside {r : BlockRef} {exit : Option Exit} {p : BlockRef × Option BlockRef}
    (h : land fn r exit = some p) : p.1 ∈ fn.layout := by
  unfold land at h
  split at h
  · split at h
    · cases h
      assumption
    · cases h
  · cases h

theorem land_sweep (fn : Func) (keep : Instr → Bool) (r : BlockRef) (exit : Option Exit) :
    land (fn.sweep keep) r exit = land fn r exit := by
  unfold land
  rw [Func.layout_sweep]

theorem start_matches (m : Machine) (fn : Func) (keep : Instr → Bool) (kept : Value → Prop) :
    Config.Matches fn kept (m.start fn) (m.start (fn.sweep keep)) where
  position := by
    unfold start
    rw [Func.layout_sweep]
  inside p hp := by
    obtain ⟨r, hr, rfl⟩ := Option.map_eq_some_iff.mp hp
    exact List.mem_of_head? hr
  env := fun _ _ => rfl
  history := rfl

theorem advance_matches {m : Machine} (hs : fn.Spares m keep kept) {c d : Config}
    (h : Config.Matches fn kept c d) :
    Config.Matches fn kept (m.advance fn c) (m.advance (fn.sweep keep) d) := by
  cases hp : c.position with
  | none =>
    rw [m.advance_of_ended fn hp, m.advance_of_ended _ (h.position.symm.trans hp)]
    exact h
  | some p =>
    obtain ⟨r, came⟩ := p
    have hr : r ∈ fn.layout := h.inside _ hp
    have hmem : ∀ i ∈ (fn.block r).body, i ∈ fn.code :=
      fun i hi => Func.mem_code_iff.mpr ⟨r, hr, hi⟩
    have hstart : Frame.Agrees kept ⟨came, c.env, c.env, c.history⟩
        ⟨came, d.env, d.env, d.history⟩ := ⟨rfl, h.env, h.env, h.history⟩
    obtain ⟨hexit, hagree⟩ := m.performAll_filter (fun i hi => hs.refs i (hmem i hi))
      (fun i hi => hs.dropped i (hmem i hi)) hstart
    rw [m.advance_of_position fn hp, m.advance_of_position _ (h.position.symm.trans hp),
      Func.block_sweep, if_pos hr, Block.body_sweep]
    refine ⟨?_, fun p hp => land_inside hp, hagree.env, hagree.history⟩
    show land fn r _ = land (fn.sweep keep) r _
    rw [land_sweep, hexit]

/-- **The two runs stay in step.** -/
theorem run_matches {m : Machine} (hs : fn.Spares m keep kept) (n : Nat) :
    Config.Matches fn kept (m.run fn n) (m.run (fn.sweep keep) n) := by
  induction n with
  | zero => exact m.start_matches fn keep kept
  | succ n ih => exact advance_matches hs ih

end Machine

/-! ## Elimination -/

/-- A sweep by what is necessary cannot be told from outside. What it keeps are the values that no
removed instruction defines. -/
theorem Func.spares_of_wellFormed {fn : Func} (h : fn.malformed? = none) {m : Machine}
    {keep : Instr → Bool}
    (hkeep : ∀ i, keep i = true ↔ Necessary (.ofRule m.isConst) fn.code i) :
    fn.Spares m keep fun v => ∀ i ∈ fn.code, i.op.result? = some v → keep i = true where
  refs i hi hk v hv j hj hjv := by
    -- The definition that counts is necessary, and it is the only one.
    obtain ⟨d, hd⟩ :=
      (lastDefines_or_undefined fn.code v).resolve_right (defined_of_wellFormed h hi hv)
    obtain rfl : j = d := eq_of_result?_eq (definitions_nodup h) hj hd.mem hjv hd.result
    exact (hkeep j).mpr (.operand ((hkeep i).mp hk) hv hd)
  dropped i hi hk := by
    refine ⟨?_, fun v hv hkept => ?_⟩
    · cases hroot : i.op.isRoot (.ofRule m.isConst) with
      | false => rfl
      | true =>
        rw [(hkeep i).mpr (.root hi hroot)] at hk
        cases hk
    · rw [hkept i hi hv] at hk
      cases hk

namespace Func

/-- **Elimination preserves the meaning of a function.** On a well-formed function of known
instructions it succeeds. Whatever machine the function and the result run on, after any number of
blocks control is at the same place and the same effects have been seen. So the one run ends if and
only if the other does, with the same effects. -/
theorem eliminate_preserves_runs {fn : Func} (h : fn.malformed? = none)
    (hknown : ∀ i ∈ fn.code, i.op.isKnown = true) (m : Machine) :
    ∃ after, fn.eliminate (.ofRule m.isConst) = (.ok (), after) ∧
      (∀ n, (m.run after n).position = (m.run fn n).position ∧
        (m.run after n).history = (m.run fn n).history) ∧
      ∀ seen, m.Ends after seen ↔ m.Ends fn seen := by
  have hok := eliminate_of_wellFormed h hknown m.isConst
  obtain ⟨keep, hkeep, hafter⟩ := eliminate_of_ok hok
  have hsame : ∀ n, (m.run (fn.sweep keep) n).position = (m.run fn n).position ∧
      (m.run (fn.sweep keep) n).history = (m.run fn n).history := by
    intro n
    have hn := Machine.run_matches (spares_of_wellFormed h hkeep) n
    exact ⟨hn.position.symm, hn.history.symm⟩
  refine ⟨fn.sweep keep, Prod.ext hok hafter, hsame, fun seen => ?_⟩
  unfold Machine.Ends
  simp only [hsame]

/-- A loop that counts down from a parameter. It carries along a second merge, which only a const
call in the loop refers to and which nobody needs. -/
def countdown : Func where
  name := "countdown"
  pool := [
    ⟨0, [⟨0, .param ⟨1⟩ 0⟩, ⟨1, .jump 1⟩], []⟩,
    ⟨1, [⟨2, .phi ⟨2⟩ [(0, .ref ⟨1⟩), (1, .ref ⟨4⟩)]⟩, ⟨3, .phi ⟨3⟩ [(0, .lit 0), (1, .ref ⟨5⟩)]⟩,
      ⟨4, .call ⟨4⟩ (.named "pred") [.ref ⟨2⟩]⟩, ⟨5, .call ⟨5⟩ (.named "pred") [.ref ⟨3⟩]⟩,
      ⟨6, .call ⟨0⟩ (.named "print") [.ref ⟨4⟩]⟩, ⟨7, .branch (.ref ⟨4⟩) 1 2⟩], [0, 1]⟩,
    ⟨2, [⟨8, .ret [.ref ⟨2⟩]⟩], [1]⟩]
  layout := [0, 1, 2]

/-- A machine on which `pred` takes one off its argument and has no effect. -/
def counter : Machine where
  isConst callee := decide (callee = .named "pred")
  unassigned := 0
  input _ := 3
  constResult _ _ xs := xs.headD 0 - 1
  callResult seen _ _ := seen.length
  takes n := decide (n ≠ 0)

theorem countdown_preserved :
    countdown.malformed? = none ∧ (∀ i ∈ countdown.code, i.op.isKnown = true) ∧
      ∃ after, countdown.eliminate (.ofRule counter.isConst) = (.ok (), after) ∧
        (∀ n, (counter.run after n).position = (counter.run countdown n).position ∧
          (counter.run after n).history = (counter.run countdown n).history) ∧
        ∀ seen, counter.Ends after seen ↔ counter.Ends countdown seen := by
  have hwell : countdown.malformed? = none := by cbv
  have hknown : ∀ i ∈ countdown.code, i.op.isKnown = true := by decide
  exact ⟨hwell, hknown, eliminate_preserves_runs hwell hknown counter⟩

end Func

end Deadwood
