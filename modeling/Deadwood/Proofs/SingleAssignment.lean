import Deadwood.Proofs.Building
import Deadwood.Proofs.Diagnosis
import Deadwood.Proofs.Lowering

/-!
# Functions built step by step

A history of steps determines the instructions that are written, before anything is built: the
`n`-th value that is asked for is number `n`, parameters are numbered as they come, and each step
says where its instruction goes (`written`).

**Theorem (`build_singleAssignment`).** Let a function be built from nothing by any history of steps
that asks for fewer than `2 ^ 32` values. Then

* its blocks are labelled by their positions;
* the values it defines are defined at one position each, and are among those asked for;
* its code consists of the instructions written, in which parameters count up from zero;
* each block holds the instructions written to it, the merges first and otherwise in the order in
  which they were written, and later steps only add to this;
* the check finds fault with it only for an instruction that ends a block too early, an operand that
  a merge receives, or a reference to a value without a definition.

Operands that merges receive are filled in later, so instructions are compared without them
(`Instr.bare`). `Reflects` says how the builder and the function in it look after a history. It is
kept by every step (`Reflects.step`), and the rest is read off it: a merge put after the merges of
its block comes where `mergesFirst` puts it (`mergesFirst_concat`), and the values defined are a
part of `1, 2, 3, …` (`results_written`).
-/

namespace Deadwood

/-! ## Merges first -/

/-- The operation without the operands it receives. -/
def Op.bare : Op → Op
  | .phi dst _ => .phi dst []
  | op => op

namespace Instr

/-- The instruction without the operands it receives. -/
def bare (i : Instr) : Instr := { i with op := i.op.bare }

@[simp] theorem isPhi_bare (i : Instr) : i.bare.op.isPhi = i.op.isPhi := by
  unfold bare
  cases i.op <;> rfl

@[simp] theorem result?_bare (i : Instr) : i.bare.op.result? = i.op.result? := by
  unfold bare
  cases i.op <;> rfl

@[simp] theorem bare_receive (tag : Nat) (p : BlockRef) (x : Operand) (i : Instr) :
    (i.receive tag p x).bare = i.bare := by
  unfold receive
  split
  · unfold bare
    cases i.op <;> rfl
  · rfl

end Instr

namespace Builder

/-- The instructions with the merges first, and otherwise in the same order. -/
def mergesFirst (l : List Instr) : List Instr :=
  l.filter (·.op.isPhi) ++ l.filter (!·.op.isPhi)

theorem perm_mergesFirst (l : List Instr) : (mergesFirst l).Perm l :=
  List.filter_append_perm (fun i : Instr => i.op.isPhi) l

theorem pairwise_mergesFirst (l : List Instr) :
    (mergesFirst l).Pairwise fun i j => j.op.isPhi = true → i.op.isPhi = true := by
  refine List.pairwise_append.mpr ⟨?_, ?_, fun i hi _ _ _ => (List.mem_filter.mp hi).2⟩
  · exact List.pairwise_of_forall_mem_list fun i hi _ _ _ => (List.mem_filter.mp hi).2
  · refine List.pairwise_of_forall_mem_list fun i _ j hj hphi => ?_
    simp [hphi] at hj

theorem sublist_mergesFirst (l m : List Instr) : (mergesFirst l).Sublist (mergesFirst (l ++ m)) :=
  ((List.sublist_append_left l m).filter _).append ((List.sublist_append_left l m).filter _)

theorem insertMerge_mergesFirst (i : Instr) (l : List Instr) :
    insertMerge i (mergesFirst l) = l.filter (·.op.isPhi) ++ i :: l.filter (!·.op.isPhi) := by
  have hmerges : ∀ j ∈ l.filter (·.op.isPhi), j.op.isPhi = true := fun j hj =>
    (List.mem_filter.mp hj).2
  have hothers : ∀ j ∈ l.filter (!·.op.isPhi), j.op.isPhi = false := by simp
  unfold insertMerge mergesFirst
  rw [List.takeWhile_append_of_pos hmerges, List.dropWhile_append_of_pos hmerges]
  cases hrest : l.filter (!·.op.isPhi) with
  | nil => simp
  | cons j rest => simp [hothers j (by simp [hrest])]

/-- What is written last comes last, or last among the merges. -/
theorem mergesFirst_concat (l : List Instr) (i : Instr) :
    mergesFirst (l ++ [i]) =
      if i.op.isPhi then insertMerge i (mergesFirst l) else mergesFirst l ++ [i] := by
  rw [insertMerge_mergesFirst]
  cases hi : i.op.isPhi <;> simp [mergesFirst, hi]

theorem map_bare_insertMerge (i : Instr) (body : List Instr) :
    (insertMerge i body).map Instr.bare = insertMerge i.bare (body.map Instr.bare) := by
  simp [insertMerge, List.takeWhile_map, List.dropWhile_map, Function.comp_def]

/-! ## What a history writes -/

/-- Whether a step hands out a value. -/
def Step.allocates : Step → Bool
  | .newValue | .param _ | .copy .. | .phi _ | .call .. => true
  | _ => false

/-- Whether a step reads a parameter. -/
def Step.isParam : Step → Bool
  | .param _ => true
  | _ => false

/-- Whether a step writes an instruction. -/
def Step.isWriting : Step → Bool
  | .newValue | .newBlock | .setIncoming .. => false
  | _ => true

/-- What a step writes after other steps, and to which block. -/
def writtenBy (before : List Step) (s : Step) : Option (BlockRef × Instr) :=
  (s.writes? (Value.ofNat (before.countP Step.allocates + 1)) (before.countP Step.isParam)).map
    fun e => (e.1, ⟨before.countP Step.isWriting, e.2⟩)

/-- What steps write after other steps, in order. -/
def writtenAfter (before : List Step) : List Step → List (BlockRef × Instr)
  | [] => []
  | s :: rest => (writtenBy before s).toList ++ writtenAfter (before ++ [s]) rest

/-- The instructions that a history writes, in order, each with its block. -/
def written (steps : List Step) : List (BlockRef × Instr) := writtenAfter [] steps

/-- The instructions that a history writes to a block, in order. -/
def writtenTo (steps : List Step) (r : BlockRef) : List Instr :=
  ((written steps).filter (·.1 = r)).map (·.2)

/-- A merge is written without operands. -/
theorem bare_of_writtenBy {before : List Step} {s : Step} {e : BlockRef × Instr}
    (h : writtenBy before s = some e) : e.2.bare = e.2 := by
  obtain ⟨w, hw, rfl⟩ := Option.map_eq_some_iff.mp h
  cases s <;> cases hw <;> rfl

theorem writtenAfter_append (before steps more : List Step) :
    writtenAfter before (steps ++ more) =
      writtenAfter before steps ++ writtenAfter (before ++ steps) more := by
  induction steps generalizing before with
  | nil => simp [writtenAfter]
  | cons s rest ih => simp [writtenAfter, ih]

theorem written_concat (steps : List Step) (s : Step) :
    written (steps ++ [s]) = written steps ++ (writtenBy steps s).toList := by
  simp [written, writtenAfter_append, writtenAfter]

theorem writtenTo_concat (steps : List Step) (s : Step) (r : BlockRef) :
    writtenTo (steps ++ [s]) r =
      writtenTo steps r ++ ((writtenBy steps s).toList.filter (·.1 = r)).map (·.2) := by
  simp [writtenTo, written_concat]

theorem exists_writtenTo_append (steps more : List Step) (r : BlockRef) :
    ∃ l, writtenTo (steps ++ more) r = writtenTo steps r ++ l := by
  simp [writtenTo, written, writtenAfter_append]

/-! ## The counters after a history -/

/-- The counters of the builder tell how often a history of steps asked for what they count. -/
structure Counts (b : Builder) (steps : List Step) : Prop where
  lastValue : b.lastValue = Value.ofNat (steps.countP Step.allocates)
  nextParam : b.nextParam = steps.countP Step.isParam
  nextTag : b.nextTag = steps.countP Step.isWriting

theorem counters_step (b : Builder) (s : Step) :
    (b.step s).2.lastValue = (if s.allocates then ⟨b.lastValue.num + 1⟩ else b.lastValue) ∧
    (b.step s).2.nextParam = (if s.isParam then b.nextParam + 1 else b.nextParam) ∧
    (b.step s).2.nextTag = (if s.isWriting then b.nextTag + 1 else b.nextTag) := by
  cases s with
  | setIncoming m p x =>
    show (b.setIncoming m p x).lastValue = b.lastValue ∧
      (b.setIncoming m p x).nextParam = b.nextParam ∧ (b.setIncoming m p x).nextTag = b.nextTag
    unfold setIncoming
    cases b.merges[m]? <;> exact ⟨rfl, rfl, rfl⟩
  | _ => exact ⟨rfl, rfl, rfl⟩

theorem next_ofNat (n : Nat) : (⟨(Value.ofNat n).num + 1⟩ : Value) = Value.ofNat (n + 1) := by
  simp [Value.ofNat, UInt32.ofNat_add]

namespace Counts

variable {b : Builder} {steps : List Step}

theorem step (h : b.Counts steps) (s : Step) : (b.step s).2.Counts (steps ++ [s]) := by
  obtain ⟨hvalue, hparam, htag⟩ := b.counters_step s
  rw [h.lastValue, next_ofNat] at hvalue
  rw [h.nextParam] at hparam
  rw [h.nextTag] at htag
  constructor
  · rw [hvalue]
    cases hs : s.allocates <;> simp [hs]
  · rw [hparam]
    cases hs : s.isParam <;> simp [hs]
  · rw [htag]
    cases hs : s.isWriting <;> simp [hs]

/-- What the builder is about to write is what the history says. -/
theorem writtenBy_eq (h : b.Counts steps) (s : Step) :
    writtenBy steps s =
      (s.writes? ⟨b.lastValue.num + 1⟩ b.nextParam).map fun e => (e.1, ⟨b.nextTag, e.2⟩) := by
  rw [writtenBy, h.lastValue, next_ofNat, h.nextParam, h.nextTag]

end Counts

/-! ## The function after a history -/

/-- The function holds what a history of steps made and wrote. -/
structure Holds (fn : Func) (steps : List Step) : Prop where
  length : fn.pool.length = steps.count .newBlock
  layout : fn.layout = List.range fn.pool.length
  label : ∀ r < fn.pool.length, fn.label r = r
  body : ∀ r, (fn.block r).body.map Instr.bare = mergesFirst (writtenTo steps r)

namespace Holds

variable {fn after : Func} {steps : List Step} {s : Step}

/-- Nothing was written to a block that is not there. -/
theorem writtenTo_of_le (h : Holds fn steps) {r : BlockRef} (hr : fn.pool.length ≤ r) :
    writtenTo steps r = [] := by
  have hperm := perm_mergesFirst (writtenTo steps r)
  rw [← h.body r, Func.block_of_le hr] at hperm
  exact List.nil_perm.mp hperm

/-- A step that writes nothing and makes no block may only give operands to merges. -/
theorem idle (h : Holds fn steps) (hnone : writtenBy steps s = none) (hs : s ≠ .newBlock)
    (hlength : after.pool.length = fn.pool.length) (hlayout : after.layout = fn.layout)
    (hblock : ∀ r, after.label r = fn.label r ∧
      (after.block r).body.map Instr.bare = (fn.block r).body.map Instr.bare) :
    Holds after (steps ++ [s]) where
  length := by simp [hlength, h.length, hs]
  layout := by rw [hlayout, hlength, h.layout]
  label r hr := by
    rw [(hblock r).1]
    exact h.label r (hlength ▸ hr)
  body r := by
    rw [(hblock r).2, h.body, writtenTo_concat, hnone]
    simp

theorem newBlock (h : Holds fn steps) :
    Holds ⟨fn.name, fn.pool ++ [Block.empty fn.layout.length], fn.layout ++ [fn.pool.length]⟩
      (steps ++ [.newBlock]) where
  length := by simp [h.length]
  layout := by simp [h.layout, List.range_succ]
  label r hr := by
    unfold Func.label
    rw [Func.block_concat]
    split
    · next heq => simp [Block.empty, h.layout, heq]
    · next hne =>
      have hle : r ≤ fn.pool.length := by simpa [Nat.lt_succ_iff] using hr
      exact h.label r (Nat.lt_of_le_of_ne hle hne)
  body r := by
    have hnone : writtenBy steps .newBlock = none := rfl
    rw [writtenTo_concat, hnone, Func.block_concat]
    split
    · next heq =>
      -- the block did not exist, so nothing can have been written to it
      simp [h.writtenTo_of_le (Nat.le_of_eq heq.symm), Block.empty, mergesFirst]
    · simp [h.body]

theorem write {b : Builder} (h : Holds b.func steps) {r : BlockRef} {i : Instr}
    (hi : writtenBy steps s = some (r, i)) (hs : s ≠ .newBlock)
    (hblocks : ∀ t ∈ r :: i.op.targets, t < b.func.pool.length) :
    Holds (b.write r i) (steps ++ [s]) where
  length := by simp [h.length, hs]
  layout := by rw [layout_write, length_pool_write, h.layout]
  label p hp := by
    rw [label_write hblocks]
    exact h.label p (by simpa using hp)
  body p := by
    rw [body_write hblocks, writtenTo_concat, hi]
    by_cases hp : p = r
    · subst hp
      have hwritten : ((some (p, i)).toList.filter (·.1 = p)).map (·.2) = [i] := by simp
      rw [if_pos rfl, hwritten, mergesFirst_concat, ← h.body]
      cases hphi : i.op.isPhi
      · simp [bare_of_writtenBy hi]
      · simp [map_bare_insertMerge, bare_of_writtenBy hi]
    · simp [hp, Ne.symm hp, h.body]

end Holds

/-! ## Every step, and every history -/

/-- The builder and the function in it are what a history of steps makes of nothing. -/
structure Reflects (b : Builder) (steps : List Step) : Prop where
  counts : b.Counts steps
  holds : Holds b.func steps

namespace Reflects

variable {b : Builder} {steps : List Step}

theorem start (name : String) : (Builder.start name).Reflects [] where
  counts := ⟨rfl, rfl, rfl⟩
  holds := ⟨rfl, rfl, fun _ hr => absurd hr (Nat.not_lt_zero _), fun _ => rfl⟩

/-- **A step adds to the history what it does.** -/
theorem step (h : b.Reflects steps) {s : Step}
    (hblocks : ∀ t ∈ s.blocks, t < b.func.pool.length) : (b.step s).2.Reflects (steps ++ [s]) := by
  refine ⟨h.counts.step s, ?_⟩
  have hwrites := h.counts.writtenBy_eq s
  rcases b.step_cases s with ⟨r, op, hw⟩ | rfl | rfl | ⟨m, p, x, rfl⟩
  · rw [Step.blocks_of_writes? hw] at hblocks
    rw [hw] at hwrites
    rw [func_step_of_writes? hw]
    refine h.holds.write hwrites ?_ hblocks
    intro hs
    rw [hs] at hw
    cases hw
  · exact h.holds.idle hwrites (by simp) rfl rfl fun r => ⟨rfl, rfl⟩
  · exact h.holds.newBlock
  · show Holds (b.setIncoming m p x).func _
    unfold setIncoming
    cases b.merges[m]? with
    | none => exact h.holds.idle hwrites (by simp) rfl rfl fun r => ⟨rfl, rfl⟩
    | some i =>
      refine h.holds.idle hwrites (by simp) (by simp) rfl fun r => ?_
      unfold Func.label
      rw [Func.block_map rfl]
      simp

theorem build (h : b.Reflects steps) {more : List Step}
    (hscoped : Scoped b.func.pool.length (more.map .step)) :
    (b.build more).Reflects (steps ++ more) := by
  induction more generalizing b steps with
  | nil =>
    rw [List.append_nil]
    exact h
  | cons s rest ih =>
    have hrest : Scoped (b.step s).2.func.pool.length (rest.map .step) := by
      rw [length_pool_step]
      exact hscoped.2
    have hall := ih (h.step hscoped.1) hrest
    rw [List.append_assoc] at hall
    exact hall

end Reflects

/-! ## What follows for the code -/

/-- What goes to the first `n` blocks, block by block, is all that goes to any of them. -/
theorem perm_flatMap_filter (n : Nat) (l : List (BlockRef × Instr)) :
    ((List.range n).flatMap fun r => l.filter (·.1 = r)).Perm (l.filter (·.1 < n)) := by
  induction n with
  | zero => simp
  | succ n ih =>
    have hsplit := List.filter_append_perm (fun e => decide (e.1 < n)) (l.filter (·.1 < n + 1))
    rw [List.filter_filter, List.filter_filter] at hsplit
    have hbelow : l.filter (fun e => decide (e.1 < n) && decide (e.1 < n + 1)) =
        l.filter (·.1 < n) := List.filter_congr fun e _ => by grind
    have hlast : l.filter (fun e => !decide (e.1 < n) && decide (e.1 < n + 1)) =
        l.filter (·.1 = n) := List.filter_congr fun e _ => by grind
    rw [hbelow, hlast] at hsplit
    rw [List.range_succ, List.flatMap_append, List.flatMap_singleton]
    exact (ih.append_right _).trans hsplit

theorem Holds.lt_length_of_mem_written {fn : Func} {steps : List Step} (h : Holds fn steps)
    {e : BlockRef × Instr} (he : e ∈ written steps) : e.1 < fn.pool.length := by
  by_contra hout
  have hmem : e.2 ∈ writtenTo steps e.1 :=
    List.mem_map_of_mem (List.mem_filter.mpr ⟨he, by simp⟩)
  rw [h.writtenTo_of_le (Nat.le_of_not_lt hout)] at hmem
  cases hmem

/-- **The code consists of the instructions written.** -/
theorem Holds.perm_code {fn : Func} {steps : List Step} (h : Holds fn steps) :
    (fn.code.map Instr.bare).Perm ((written steps).map (·.2)) := by
  have hcode : fn.code.map Instr.bare =
      (List.range fn.pool.length).flatMap fun r => mergesFirst (writtenTo steps r) := by
    unfold Func.code Func.body
    rw [h.layout, List.flatMap_map, List.map_flatMap]
    simp only [h.body]
  have hinside : (written steps).filter (·.1 < fn.pool.length) = written steps := by
    rw [List.filter_eq_self]
    intro e he
    simpa using h.lt_length_of_mem_written he
  rw [hcode]
  have hsorted := List.Perm.flatMap_left (List.range fn.pool.length)
    fun r _ => perm_mergesFirst (writtenTo steps r)
  refine hsorted.trans ?_
  have hparts := (perm_flatMap_filter fn.pool.length (written steps)).map (·.2)
  rwa [List.map_flatMap, hinside] at hparts

/-! ### Values -/

theorem result?_of_writes? {s : Step} {v : Value} {n : Nat} {e : BlockRef × Op}
    (h : s.writes? v n = some e) :
    e.2.result? = if s.allocates then (some v).filter fun v => decide v.IsSome else none := by
  cases s <;> cases h <;> rfl

/-- A step defines the value it asks for, or none. -/
theorem results_writtenBy (before : List Step) (s : Step) :
    ((writtenBy before s).toList.filterMap (·.2.op.result?)).Sublist
      (if s.allocates then [Value.ofNat (before.countP Step.allocates + 1)] else []) := by
  cases hw : writtenBy before s with
  | none => simp
  | some e =>
    obtain ⟨w, hwrites, rfl⟩ := Option.map_eq_some_iff.mp hw
    have hresult := result?_of_writes? hwrites
    cases hs : s.allocates
    · simp [hresult, hs]
    · by_cases hv : (Value.ofNat (before.countP Step.allocates + 1)).IsSome <;>
        simp [Option.filter, hresult, hs, hv]

/-- The values that a history defines are among those it asks for, in that order. -/
theorem results_written (steps : List Step) :
    ((written steps).filterMap (·.2.op.result?)).Sublist
      ((List.range (steps.countP Step.allocates)).map fun n => Value.ofNat (n + 1)) := by
  induction steps using List.reverseRecOn with
  | nil => exact List.Sublist.refl _
  | append_singleton steps s ih =>
    have hstep := results_writtenBy steps s
    rw [written_concat, List.filterMap_append, List.countP_append]
    cases hs : s.allocates
    · simpa [hs] using ih.append hstep
    · simpa [hs, List.range_succ] using ih.append hstep

theorem Holds.perm_definitions {fn : Func} {steps : List Step} (h : Holds fn steps) :
    fn.definitions.Perm ((written steps).filterMap (·.2.op.result?)) := by
  unfold Func.definitions
  have hcode := h.perm_code.filterMap (·.op.result?)
  rw [List.filterMap_map, List.filterMap_map] at hcode
  simpa only [Function.comp_def, Instr.result?_bare] using hcode

/-- **Each value is defined at one position at most**, and is one that was asked for. -/
theorem Holds.definitions {fn : Func} {steps : List Step} (h : Holds fn steps)
    (hfew : steps.countP Step.allocates < 4294967296) :
    fn.definitions.Nodup ∧
      ∀ v ∈ fn.definitions, 1 ≤ v.num.toNat ∧ v.num.toNat ≤ steps.countP Step.allocates := by
  have hsub := results_written steps
  constructor
  · have hall : ((List.range (steps.countP Step.allocates)).map
        fun n => Value.ofNat (n + 1)).Nodup := by
      refine List.nodup_range.map_on fun m hm n hn heq => ?_
      rw [List.mem_range] at hm hn
      exact Nat.succ.inj (Value.ofNat_inj (by omega) (by omega) heq)
    exact h.perm_definitions.nodup_iff.mpr (hall.sublist hsub)
  · intro v hv
    obtain ⟨n, hn, rfl⟩ := List.mem_map.mp (hsub.subset (h.perm_definitions.mem_iff.mp hv))
    rw [List.mem_range] at hn
    have hnum : (Value.ofNat (n + 1)).num.toNat = n + 1 := by
      show (UInt32.ofNat (n + 1)).toNat = n + 1
      rw [UInt32.toNat_ofNat']
      exact Nat.mod_eq_of_lt (by omega)
    omega

end Builder

/-! ### Parameters -/

/-- The number of the parameter that the operation reads. -/
def Op.paramIndex? : Op → Option Int
  | .param _ index => some index
  | _ => none

namespace Builder

theorem paramIndex?_of_writes? {s : Step} {v : Value} {n : Nat} {e : BlockRef × Op}
    (h : s.writes? v n = some e) :
    e.2.paramIndex? = if s.isParam then some (n : Int) else none := by
  cases s <;> cases h <;> rfl

theorem params_writtenBy (before : List Step) (s : Step) :
    (writtenBy before s).toList.filterMap (·.2.op.paramIndex?) =
      if s.isParam then [(before.countP Step.isParam : Int)] else [] := by
  cases hw : writtenBy before s with
  | none =>
    have hs : s.isParam = false := by
      cases s <;> first | rfl | cases hw
    simp [hs]
  | some e =>
    obtain ⟨w, hwrites, rfl⟩ := Option.map_eq_some_iff.mp hw
    have hindex := paramIndex?_of_writes? hwrites
    cases hs : s.isParam <;> simp [hindex, hs]

/-- Parameters count up from zero in the order in which they are written. -/
theorem params_written (steps : List Step) :
    (written steps).filterMap (·.2.op.paramIndex?) =
      (List.range (steps.countP Step.isParam)).map Int.ofNat := by
  induction steps using List.reverseRecOn with
  | nil => rfl
  | append_singleton steps s ih =>
    rw [written_concat, List.filterMap_append, ih, params_writtenBy, List.countP_append]
    cases hs : s.isParam <;> simp [hs, List.range_succ]

end Builder

/-! ### The check -/

/-- The defect is an instruction that ends a block too early, an operand that a merge receives, or a
reference to a value without a definition. -/
def Defect.survivesBuilding : Defect → Bool
  | .earlyTerminator _ | .foreignIncoming .. | .falseIncoming .. | .undefined .. => true
  | .redefined _ | .latePhi _ | .other _ => false

namespace Func

variable {fn : Func} {b : Block} {d : Defect}

theorem survivesBuilding_of_incomingDefect? {i : Instr} (h : fn.incomingDefect? b i = some d) :
    d.survivesBuilding = true := by
  unfold incomingDefect? at h
  split at h
  · obtain ⟨e, -, he⟩ := List.exists_of_findSome?_eq_some h
    split at he
    · cases he
      rfl
    · split at he
      · cases he
      · cases he
        rfl
  · cases h

theorem survivesBuilding_of_useDefect? {i : Instr} (h : fn.useDefect? i = some d) :
    d.survivesBuilding = true := by
  obtain ⟨v, -, rfl⟩ := Option.map_eq_some_iff.mp h
  rfl

theorem survivesBuilding_of_instrDefect? {isLast afterOther : Bool} {i : Instr}
    (hafter : afterOther = true → i.op.isPhi = false)
    (h : fn.instrDefect? b isLast afterOther i = some d) : d.survivesBuilding = true := by
  unfold instrDefect? at h
  split at h
  · cases h
    rfl
  · split at h
    · next hlate =>
      rw [Bool.and_eq_true] at hlate
      rw [hafter hlate.2] at hlate
      cases hlate.1
    · rcases Option.or_eq_some_iff.mp h with h | ⟨-, h⟩
      · exact survivesBuilding_of_incomingDefect? h
      · exact survivesBuilding_of_useDefect? h

/-- Where merges come first, the check of a row of instructions does not find them misplaced. -/
theorem survivesBuilding_of_bodyDefect? {afterOther : Bool} {rest : List Instr}
    (hmerges : rest.Pairwise fun i j => j.op.isPhi = true → i.op.isPhi = true)
    (hafter : afterOther = true → ∀ i ∈ rest, i.op.isPhi = false)
    (h : fn.bodyDefect? b afterOther rest = some d) : d.survivesBuilding = true := by
  induction rest generalizing afterOther with
  | nil => cases h
  | cons i rest ih =>
    rw [List.pairwise_cons] at hmerges
    rw [bodyDefect?] at h
    rcases Option.or_eq_some_iff.mp h with hfirst | ⟨-, hrest⟩
    · exact survivesBuilding_of_instrDefect? (fun ho => hafter ho i List.mem_cons_self) hfirst
    · refine ih hmerges.2 ?_ hrest
      intro ho j hj
      rcases Bool.or_eq_true_iff.mp ho with ho | hi
      · exact hafter ho j (List.mem_cons_of_mem i hj)
      · cases hphi : j.op.isPhi with
        | false => rfl
        | true => simp [hmerges.1 j hj hphi] at hi

/-- Where values are defined once and merges come first, the check finds neither at fault. -/
theorem survivesBuilding_of_malformed? (hnodup : fn.definitions.Nodup)
    (hmerges : ∀ r, (fn.block r).body.Pairwise fun i j => j.op.isPhi = true → i.op.isPhi = true)
    {m : Malformed} (h : fn.malformed? = some m) : m.defect.survivesBuilding = true := by
  rw [malformed?_of_defined_once (nodup_definitions_iff.mp hnodup)] at h
  obtain ⟨b, hb, hdefect⟩ := List.exists_of_findSome?_eq_some h
  obtain ⟨r, -, rfl⟩ := List.mem_map.mp hb
  obtain ⟨d, hd, rfl⟩ := Option.map_eq_some_iff.mp hdefect
  exact survivesBuilding_of_bodyDefect? (hmerges r) (by simp) hd

end Func

/-! ## The result -/

namespace Builder

theorem Holds.merges_first {fn : Func} {steps : List Step} (h : Holds fn steps) (r : BlockRef) :
    (fn.block r).body.Pairwise fun i j => j.op.isPhi = true → i.op.isPhi = true := by
  have hbare := pairwise_mergesFirst (writtenTo steps r)
  rw [← h.body r, List.pairwise_map] at hbare
  simpa only [Instr.isPhi_bare] using hbare

theorem Scoped.of_append {n : Nat} {actions more : List Action} (h : Scoped n (actions ++ more)) :
    Scoped n actions := by
  induction actions generalizing n with
  | nil => trivial
  | cons a rest ih => exact ⟨h.1, ih h.2⟩

/-- **Functions built step by step are in single-assignment form, with merges first.** Blocks are
labelled by their positions. Each value is defined at one position at most and is one of those asked
for. The code consists of the instructions written, and their parameters count up from zero. In a
block, merges come first, and otherwise the instructions written to it stand in the order in which
they were written; what an earlier part of the history built is there, in its order. The check can
only complain of an instruction that ends a block too early, of an operand that a merge receives, or
of a value without a definition. -/
theorem build_singleAssignment (name : String) (steps : List Step)
    (hscoped : Scoped 0 (steps.map .step)) (hfew : steps.countP Step.allocates < 4294967296) :
    let fn := ((start name).build steps).func
    (fn.layout = List.range (steps.count .newBlock) ∧ ∀ r ∈ fn.layout, fn.label r = r) ∧
    (fn.definitions.Nodup ∧
      ∀ v ∈ fn.definitions, 1 ≤ v.num.toNat ∧ v.num.toNat ≤ steps.countP Step.allocates) ∧
    ((fn.code.map Instr.bare).Perm ((written steps).map (·.2)) ∧
      (written steps).filterMap (·.2.op.paramIndex?) =
        (List.range (steps.countP Step.isParam)).map Int.ofNat) ∧
    (∀ r, (fn.block r).body.Pairwise fun i j => j.op.isPhi = true → i.op.isPhi = true) ∧
    (∀ r, (fn.block r).body.map Instr.bare = mergesFirst (writtenTo steps r)) ∧
    (∀ before after, steps = before ++ after → ∀ r,
      ((((start name).build before).func.block r).body.map Instr.bare).Sublist
        ((fn.block r).body.map Instr.bare)) ∧
    ∀ m, fn.malformed? = some m → m.defect.survivesBuilding = true := by
  intro fn
  have hbuilt : ∀ steps, Scoped 0 (steps.map .step) → Holds ((start name).build steps).func steps :=
    fun steps hscoped => ((Reflects.start name).build hscoped).holds
  have hfn : Holds fn steps := hbuilt steps hscoped
  have hlayout : fn.layout = List.range (steps.count .newBlock) := by rw [hfn.layout, hfn.length]
  have hdefs := hfn.definitions hfew
  refine ⟨⟨hlayout, fun r hr => ?_⟩, hdefs, ⟨hfn.perm_code, params_written steps⟩,
    hfn.merges_first, hfn.body, fun before after hsteps r => ?_, fun m hm => ?_⟩
  · rw [hlayout, ← hfn.length, List.mem_range] at hr
    exact hfn.label r hr
  · have hbefore : Scoped 0 (before.map .step) := by
      rw [hsteps, List.map_append] at hscoped
      exact hscoped.of_append
    obtain ⟨l, hl⟩ := exists_writtenTo_append before after r
    rw [(hbuilt before hbefore).body, hfn.body, hsteps, hl]
    exact sublist_mergesFirst _ l
  · exact Func.survivesBuilding_of_malformed? hdefs.1 hfn.merges_first hm

/-- A history in which merges are made after other instructions of their block and given operands
later still, one of them a value that was asked for and never defined. -/
def spinSteps : List Step := [
  .newBlock, .newBlock, .param 0, .jump 0 1, .newValue, .copy 1 (.ref ⟨1⟩),
  .callVoid 1 "log" [.ref ⟨3⟩], .phi 1, .param 1, .phi 1, .setIncoming 0 0 (.ref ⟨1⟩),
  .setIncoming 0 1 (.ref ⟨2⟩), .branch 1 (.ref ⟨4⟩) 1 1]

/-- What the history builds. -/
def spin : Func where
  name := "spin"
  pool := [
    ⟨0, [⟨0, .param ⟨1⟩ 0⟩, ⟨1, .jump 1⟩], []⟩,
    ⟨1, [⟨4, .phi ⟨4⟩ [(0, .ref ⟨1⟩), (1, .ref ⟨2⟩)]⟩, ⟨6, .phi ⟨6⟩ []⟩, ⟨2, .copy ⟨3⟩ (.ref ⟨1⟩)⟩,
      ⟨3, .call ⟨0⟩ (.named "log") [.ref ⟨3⟩]⟩, ⟨5, .param ⟨5⟩ 1⟩, ⟨7, .branch (.ref ⟨4⟩) 1 1⟩],
      [0, 1]⟩]
  layout := [0, 1]

theorem build_spin : ((start "spin").build spinSteps).func = spin := by
  decide

theorem spin_singleAssignment :
    Scoped 0 (spinSteps.map .step) ∧ spinSteps.countP Step.allocates = 6 ∧
    spin.definitions = [⟨1⟩, ⟨4⟩, ⟨6⟩, ⟨3⟩, ⟨5⟩] ∧ spin.definitions.Nodup ∧
    (spin.block 1).body.map Instr.bare = mergesFirst (writtenTo spinSteps 1) ∧
    ∃ v text, spin.malformed? = some ⟨"spin", 1, .undefined v text⟩ ∧
      (Defect.undefined v text).survivesBuilding = true := by
  have hscoped : Scoped 0 (spinSteps.map .step) := by decide
  have hfew : spinSteps.countP Step.allocates = 6 := by decide
  have hbuild := build_singleAssignment "spin" spinSteps hscoped (by omega)
  rw [build_spin] at hbuild
  obtain ⟨-, hdefs, -, -, hbody, -, hcheck⟩ := hbuild
  have hmalformed : spin.malformed? =
      some ⟨"spin", 1, .undefined ⟨2⟩ "%v4 = φ(bb_0: %v1, bb_1: %v2)"⟩ := by cbv
  exact ⟨hscoped, hfew, by decide, hdefs.1, hbody 1, _, _, hmalformed, hcheck _ hmalformed⟩

end Builder

end Deadwood
