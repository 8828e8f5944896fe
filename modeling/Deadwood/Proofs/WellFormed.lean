import Deadwood.WellFormed
import Deadwood.Proofs.Necessary

/-!
# What a well-formed function promises

**Theorem (`malformed?_eq_none_iff`).** The check finds nothing wrong with a function exactly if the
function is well-formed (`Func.WellFormed`): it defines no value at two positions, instructions that
end a block and merges stand where they may, merges receive from blocks that control may come from
as far as labels tell, and every value referred to is defined.

The check stops at the first thing that is wrong, so its silence has to be read off each of its
loops. Each has a lemma that says what its silence means, and no later proof opens the check.

In a well-formed function the definition that counts for a value is the only one
(`eq_of_result?_eq`), and every reference of a necessary instruction is resolved.
-/

namespace Deadwood

/-- The block that stands for a label is one that the merge receives from. -/
theorem Incoming.exists_namesake {label : BlockRef → Int} {incoming : Incoming}
    {e : BlockRef × Operand} (he : e ∈ incoming) :
    ∃ d ∈ incoming, incoming.namesake label e.1 = d.1 ∧ label d.1 = label e.1 := by
  unfold namesake
  cases hfind : (incoming.map (·.1)).reverse.find? fun p => decide (label p = label e.1) with
  | none => exact ⟨e, he, rfl, rfl⟩
  | some p =>
    have hlabel : label p = label e.1 := by simpa using List.find?_some hfind
    obtain ⟨d, hd, rfl⟩ := List.mem_map.mp (List.mem_reverse.mp (List.mem_of_find?_eq_some hfind))
    exact ⟨d, hd, rfl, hlabel⟩

namespace Func

/-- The values that the positions of the body define, in order. -/
def definitions (fn : Func) : List Value := fn.code.filterMap (·.op.result?)

theorem map_positions (fn : Func) : fn.positions.map (·.2) = fn.code := by
  unfold positions code
  induction fn.body with
  | nil => rfl
  | cons b rest ih =>
    rw [List.flatMap_cons, List.flatMap_cons, List.map_append, ih, List.map_map]
    congr 1
    exact List.map_id' b.body

/-- The search for a second definition finds none exactly if there is none, among the positions and
the values already seen. -/
theorem redefinition?_eq_none_iff {seen : List Value} {ps : List (Int × Instr)} :
    redefinition? seen ps = none ↔
      (ps.filterMap (·.2.op.result?)).Nodup ∧ ∀ v ∈ ps.filterMap (·.2.op.result?), v ∉ seen := by
  fun_induction redefinition? seen ps with
  | case1 seen => simp
  | case2 seen label i rest v hv hmem => simp [hv, hmem]
  | case3 seen label i rest v hv hmem ih =>
    simp only [ih, List.filterMap_cons, hv, List.nodup_cons]
    constructor
    · rintro ⟨hnodup, hseen⟩
      refine ⟨⟨fun hin => hseen v hin List.mem_cons_self, hnodup⟩, fun u hu => ?_⟩
      rcases List.mem_cons.mp hu with rfl | hu
      · exact hmem
      · exact fun h => hseen u hu (List.mem_cons_of_mem v h)
    · rintro ⟨⟨hv', hnodup⟩, hseen⟩
      refine ⟨hnodup, fun u hu h => ?_⟩
      rcases List.mem_cons.mp h with rfl | h
      · exact hv' hu
      · exact hseen u (List.mem_cons_of_mem v hu) h
  | case4 seen label i rest hv ih => simp only [ih, List.filterMap_cons, hv]

theorem filterMap_positions (fn : Func) :
    fn.positions.filterMap (·.2.op.result?) = fn.definitions := by
  unfold definitions
  rw [← map_positions, List.filterMap_map]
  rfl

theorem useDefect?_eq_none_iff {fn : Func} {i : Instr} :
    fn.useDefect? i = none ↔ ∀ v ∈ i.op.refs, ¬ Undefined fn.code v := by
  simp [useDefect?, isDefined, Undefined]

theorem incomingDefect?_eq_none_iff {fn : Func} {b : Block} {i : Instr} :
    fn.incomingDefect? b i = none ↔ ∀ dst incoming, i.op = .phi dst incoming →
      ∀ e ∈ incoming, incoming.namesake fn.label e.1 ∈ fn.layout ∧
        fn.hasEdge (fn.label e.1) b.label = true := by
  unfold incomingDefect?
  cases hop : i.op with
  | phi dst incoming =>
    have hedge : ∀ e : Int × BlockRef × Operand,
        (if incoming.namesake fn.label e.2.1 ∉ fn.layout then
            some (Defect.foreignIncoming (fn.instrText i) e.1)
          else if fn.hasEdge e.1 b.label then none
          else some (.falseIncoming (fn.instrText i) e.1)) = none ↔
        incoming.namesake fn.label e.2.1 ∈ fn.layout ∧ fn.hasEdge e.1 b.label = true := by
      intro e
      by_cases hin : incoming.namesake fn.label e.2.1 ∈ fn.layout <;> simp [hin]
    simp only [List.findSome?_eq_none_iff, hedge, Incoming.labelled, List.mem_mergeSort,
      List.forall_mem_map, Op.phi.injEq]
    constructor
    · rintro h _ _ ⟨-, rfl⟩
      exact h
    · intro h
      exact h dst incoming ⟨rfl, rfl⟩
  | _ => simp

theorem instrDefect?_eq_none_iff {fn : Func} {b : Block} {isLast afterOther : Bool} {i : Instr} :
    fn.instrDefect? b isLast afterOther i = none ↔
      (i.op.isTerminator = true → isLast = true) ∧ (i.op.isPhi = true → afterOther = false) ∧
        fn.incomingDefect? b i = none ∧ fn.useDefect? i = none := by
  unfold instrDefect?
  cases i.op.isTerminator <;> cases i.op.isPhi <;> cases isLast <;> cases afterOther <;> simp

end Func

/-- The instructions of a block stand where they may: none but the last one ends the block, and
nothing but merges stands before a merge. -/
structure Block.Ordered (b : Block) : Prop where
  terminators : b.body.Pairwise fun i _ => i.op.isTerminator = false
  merges : b.body.Pairwise fun i j => j.op.isPhi = true → i.op.isPhi = true

namespace Func

/-- The check of a row of instructions is silent if they are in order, come with no merge after
another kind of instruction, and have nothing wrong with them one by one. -/
theorem bodyDefect?_eq_none_iff {fn : Func} {b : Block} {afterOther : Bool} {body : List Instr} :
    fn.bodyDefect? b afterOther body = none ↔
      body.Pairwise (fun i _ => i.op.isTerminator = false) ∧
      body.Pairwise (fun i j => j.op.isPhi = true → i.op.isPhi = true) ∧
      (afterOther = true → ∀ i ∈ body, i.op.isPhi = false) ∧
      ∀ i ∈ body, fn.incomingDefect? b i = none ∧ fn.useDefect? i = none := by
  induction body generalizing afterOther with
  | nil => simp [bodyDefect?]
  | cons i rest ih =>
    rw [bodyDefect?, Option.or_eq_none_iff, instrDefect?_eq_none_iff, ih, List.pairwise_cons,
      List.pairwise_cons, List.forall_mem_cons, List.forall_mem_cons]
    have hlast : (i.op.isTerminator = true → rest.isEmpty = true) ↔
        ∀ j ∈ rest, i.op.isTerminator = false := by
      cases rest with
      | nil => simp
      | cons k rest => simpa using fun hi _ _ => hi
    rw [hlast]
    cases i.op.isPhi <;> cases afterOther <;> simp <;> grind

/-- What an elimination can rely on. -/
structure WellFormed (fn : Func) : Prop where
  definitions : fn.definitions.Nodup
  ordered : ∀ b ∈ fn.body, b.Ordered
  incoming : ∀ b ∈ fn.body, ∀ i ∈ b.body, ∀ dst incoming, i.op = .phi dst incoming →
    ∀ e ∈ incoming, incoming.namesake fn.label e.1 ∈ fn.layout ∧
      fn.hasEdge (fn.label e.1) b.label = true
  defined : ∀ i ∈ fn.code, ∀ v ∈ i.op.refs, ¬ Undefined fn.code v

theorem mem_code_iff {fn : Func} {i : Instr} :
    i ∈ fn.code ↔ ∃ r ∈ fn.layout, i ∈ (fn.block r).body := by
  unfold code body
  rw [List.flatMap_map, List.mem_flatMap]

/-- **The check is silent exactly on the well-formed functions.** -/
theorem malformed?_eq_none_iff {fn : Func} : fn.malformed? = none ↔ fn.WellFormed := by
  have hredefined : redefinition? [] fn.positions = none ↔ _ := redefinition?_eq_none_iff
  rw [filterMap_positions] at hredefined
  unfold malformed?
  constructor
  · intro h
    split at h
    case h_1 => cases h
    case h_2 hr =>
      simp only [List.findSome?_eq_none_iff, Option.map_eq_none_iff, bodyDefect?_eq_none_iff] at h
      refine ⟨(hredefined.mp hr).1, fun b hb => ⟨(h b hb).1, (h b hb).2.1⟩, ?_, ?_⟩
      · intro b hb i hi
        exact incomingDefect?_eq_none_iff.mp ((h b hb).2.2.2 i hi).1
      · intro i hi
        obtain ⟨r, hr, hi⟩ := mem_code_iff.mp hi
        exact useDefect?_eq_none_iff.mp ((h _ (List.mem_map_of_mem hr)).2.2.2 i hi).2
  · intro h
    rw [hredefined.mpr ⟨h.definitions, by simp⟩]
    simp only [List.findSome?_eq_none_iff, Option.map_eq_none_iff, bodyDefect?_eq_none_iff]
    intro b hb
    refine ⟨(h.ordered b hb).terminators, (h.ordered b hb).merges, by simp, fun i hi => ⟨?_, ?_⟩⟩
    · exact incomingDefect?_eq_none_iff.mpr (h.incoming b hb i hi)
    · refine useDefect?_eq_none_iff.mpr (h.defined i ?_)
      exact List.mem_flatMap.mpr ⟨b, hb, hi⟩

/-- No value is defined at two positions of a well-formed function. -/
theorem definitions_nodup {fn : Func} (h : fn.malformed? = none) : fn.definitions.Nodup :=
  (malformed?_eq_none_iff.mp h).definitions

/-- Every value that an instruction of a well-formed function refers to is defined. -/
theorem defined_of_wellFormed {fn : Func} (h : fn.malformed? = none) {i : Instr}
    (hi : i ∈ fn.code) {v : Value} (hv : v ∈ i.op.refs) : ¬ Undefined fn.code v :=
  (malformed?_eq_none_iff.mp h).defined i hi v hv

end Func

/-- In code that defines no value twice, the instruction that defines a value is the only one. -/
theorem eq_of_result?_eq {code : List Instr} (h : (code.filterMap (·.op.result?)).Nodup)
    {i j : Instr} {v : Value} (hi : i ∈ code) (hj : j ∈ code) (hiv : i.op.result? = some v)
    (hjv : j.op.result? = some v) : i = j := by
  induction code with
  | nil => cases hi
  | cons k rest ih =>
    rw [List.filterMap_cons] at h
    -- A second definition of `v` behind `k` would make the list repeat `v`.
    have hlater : ∀ {l : Instr}, l ∈ rest → l.op.result? = some v → k.op.result? ≠ some v := by
      intro l hl hlv hkv
      rw [hkv, List.nodup_cons] at h
      exact h.1 (List.mem_filterMap.mpr ⟨l, hl, hlv⟩)
    have hrest : (rest.filterMap (·.op.result?)).Nodup := by
      split at h
      · exact h
      · exact (List.nodup_cons.mp h).2
    rcases List.mem_cons.mp hi with rfl | hi' <;> rcases List.mem_cons.mp hj with rfl | hj'
    · rfl
    · exact absurd hiv (hlater hj' hjv)
    · exact absurd hjv (hlater hi' hiv)
    · exact ih hrest hi' hj'

end Deadwood
