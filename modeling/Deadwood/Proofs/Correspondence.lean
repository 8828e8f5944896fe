import Deadwood.Proofs.LoweringWellFormed

/-!
# What lowering keeps

A lowered function has the structure of its source: the same order of blocks and instructions, the
same uses of values, the same control flow.

**Theorem (`lower_keeps_structure`).** Let a function have a body and names for all its values, let
its blocks have each predecessor once, and let its instructions have the operands and successors of
their kinds. Then there are instructions that read the inputs, and values that stand for what the
function computes, such that

* the lowered function has the same blocks in the same order, holds after the readings of the inputs
  one instruction for each one of the source that is no note, in the same order, and tells from
  which (`KeepsOrder`);
* different parameters, captured variables and results have different values, each is defined by its
  own instruction, and an instruction refers, place by place, to the values of its operands
  (`KeepsUses`);
* instructions and blocks send control where those of the source do, and predecessors are recorded
  accordingly (`KeepsFlow`).

None of the three speaks of how values or tags are numbered. They are read off the description of
the lowering site by site: a lowered block is its source block with the notes left out and each
instruction replaced (`map_lowerBlock`).
-/

namespace Deadwood

namespace Source

/-! ## The structure of a source function -/

namespace Block

/-- The sites of the block with number `n` that hold no note, in order. -/
def sites (b : Block) (n : Nat) : List Site :=
  (b.instrs.zipIdx.filter fun p => p.1.kind ≠ .debugRef).map fun p => ⟨n, p.2⟩

/-- Where the block sends control: where its last instruction does, notes apart. -/
def exits (b : Block) : List Nat :=
  ((b.instrs.filter fun i => i.kind ≠ .debugRef).getLast?.map (·.exits b)).getD []

end Block

namespace Func

/-- The operand is a parameter of the function, a variable it captures, or a result it computes. -/
def Computes (fn : Func) : Arg → Prop
  | .param n => n < fn.params.length
  | .free n => n < fn.free.length
  | .result s => ∃ i, fn.instr? s = some i ∧ i.kind.isValue = true
  | _ => False

/-- The parameters and then the captured variables. -/
def inputArgs (fn : Func) : List Arg :=
  (List.range fn.params.length).map .param ++ (List.range fn.free.length).map .free

/-- The lowered function has the blocks and instructions of the source in their order. The
instructions `reads` at the head of the entry come from no site. -/
structure KeepsOrder (fn : Func) (l : Lowered) (reads : List Deadwood.Instr) : Prop where
  name : l.func.name = fn.name
  blocks : l.func.pool.length = fn.blocks.length ∧ l.func.layout = List.range fn.blocks.length
  labels : ∀ n < fn.blocks.length, l.func.label n = n
  /-- A block holds one instruction for each site of its source that is no note, in order. -/
  bodies : ∀ (n : Nat) (b : Block), fn.blocks[n]? = some b → ∃ nodes,
    (l.func.block n).body = (if n = 0 then reads else []) ++ nodes ∧
      nodes.map l.origin? = (b.sites n).map some
  reads : ∀ j ∈ reads, l.origin? j = none
  /-- No instruction stands at two positions. -/
  once : l.func.code.Nodup
  /-- Whatever has an origin is in the function, and its origin is no note. -/
  origins : ∀ j s, l.origin? j = some s →
    j ∈ l.func.code ∧ ∃ i, fn.instr? s = some i ∧ i.kind ≠ .debugRef
  /-- Each site that holds no note is the origin of one instruction. -/
  lowered : ∀ s i, fn.instr? s = some i → i.kind ≠ .debugRef → ∃! j, l.origin? j = some s
  size : (l.origins.map (·.1)).Nodup ∧
    l.func.size = l.origins.length + fn.params.length + fn.free.length

/-- The lowered function defines and uses values as the source does, where `value` tells which value
stands for an operand. -/
structure KeepsUses (fn : Func) (l : Lowered) (reads : List Deadwood.Instr)
    (value : Arg → Option Value) : Prop where
  /-- What the function computes has a value, and nothing else. -/
  computed : ∀ a, (∃ v, value a = some v) ↔ fn.Computes a
  distinct : ∀ a b v, value a = some v → value b = some v → a = b
  isSome : ∀ a v, value a = some v → v.IsSome
  /-- The inputs are read in order and numbered from zero. -/
  reads : reads.map (fun j => some j.op) =
    fn.inputArgs.zipIdx.map fun p => (value p.1).map fun v => .param v p.2
  /-- An instruction defines the value of its own site. -/
  result : ∀ j s, l.origin? j = some s → j.op.result? = value (.result s)
  /-- An instruction refers to the values of the operands of its source, in order. -/
  refs : ∀ j s i, l.origin? j = some s → fn.instr? s = some i →
    j.op.refs = (i.args.filterMap id).filterMap value
  /-- What it reads at a place is the value of the operand at that place, if this has one. -/
  places : ∀ j s i, l.origin? j = some s → fn.instr? s = some i → ∀ k : Nat,
    (j.op.uses[k]?).bind Operand.value? = (i.places[k]?).join.bind value
  /-- A merge receives its operands from the predecessors in turn, and nothing else is a merge. -/
  merges : ∀ j s i b, l.origin? j = some s → fn.instr? s = some i → fn.blocks[s.block]? = some b →
    (i.kind = .phi ↔ ∃ dst incoming, j.op = .phi dst incoming ∧
      incoming.map (·.1) = b.preds.take i.args.length)

/-- The lowered function sends control where the source does. -/
structure KeepsFlow (fn : Func) (l : Lowered) : Prop where
  targets : ∀ j s i b, l.origin? j = some s → fn.instr? s = some i →
    fn.blocks[s.block]? = some b →
    j.op.targets = i.exits b ∧ j.op.isTerminator = i.kind.isControl
  successors : ∀ (n : Nat) (b : Block), fn.blocks[n]? = some b →
    (l.func.block n).successors = b.exits
  /-- The recorded predecessors are the blocks with an instruction that leads there. -/
  preds : ∀ n < fn.blocks.length, (l.func.block n).preds.Nodup ∧ ∀ p,
    p ∈ (l.func.block n).preds ↔ ∃ b, fn.blocks[p]? = some b ∧ ∃ i ∈ b.instrs, n ∈ i.exits b

/-! ## Order -/

/-- **A lowered block is its source block without notes, instruction by instruction.** -/
theorem map_lowerBlock {fn : Func} {n : Nat} {b : Block} {α : Type}
    {f : Deadwood.Instr × Site → α} {g : Instr × Nat → α}
    (h : ∀ i k op, b.instrs[k]? = some i → fn.lowerOp? b ⟨n, k⟩ i = some op →
      f (⟨fn.tagAt ⟨n, k⟩, op⟩, ⟨n, k⟩) = g (i, k)) :
    (fn.lowerBlock n b).map f =
      (b.instrs.zipIdx.filter fun p => p.1.kind ≠ .debugRef).map g := by
  unfold lowerBlock
  rw [List.map_filterMap, ← List.filterMap_eq_map, List.filterMap_filter]
  refine List.filterMap_congr fun p hp => ?_
  obtain ⟨i, k⟩ := p
  have hi : b.instrs[k]? = some i := List.mem_zipIdx_iff_getElem?.mp hp
  by_cases hnote : i.kind = .debugRef
  · simp [lowerOp?_eq_none_iff.mpr hnote, hnote]
  · obtain ⟨op, hop⟩ : ∃ op, fn.lowerOp? b ⟨n, k⟩ i = some op :=
      Option.ne_none_iff_exists'.mp (mt lowerOp?_eq_none_iff.mp hnote)
    simp [hop, hnote, h i k op hi hop]

theorem lowers_of_mem_lowerBlock {fn : Func} {n : Nat} {b : Block} (hb : fn.blocks[n]? = some b)
    {p : Deadwood.Instr × Site} (hp : p ∈ fn.lowerBlock n b) : fn.Lowers p.2 p.1 := by
  have horigins : fn.lower.origins = (fn.blocks.mapIdx fn.lowerBlock).flatten := rfl
  obtain ⟨hlt, rfl⟩ := List.getElem?_eq_some_iff.mp hb
  rw [Lowers, horigins]
  exact List.mem_flatten.mpr ⟨_, List.mem_mapIdx.mpr ⟨n, hlt, rfl⟩, hp⟩

/-- What an instruction is told to come from is what it was lowered from. -/
theorem origin?_eq_some_iff {fn : Func} {j : Deadwood.Instr} {s : Site} :
    fn.lower.origin? j = some s ↔ fn.Lowers s j := by
  refine ⟨fun h => ?_, origin?_lower⟩
  obtain ⟨before, after, heq, -⟩ := List.lookup_eq_some_iff.mp h
  rw [Lowers, heq]
  exact List.mem_append_right _ List.mem_cons_self

theorem origin?_readInputs {fn : Func} {j : Deadwood.Instr} (hj : j ∈ fn.readInputs) :
    fn.lower.origin? j = none := by
  obtain ⟨n, hn, rfl⟩ := List.mem_map.mp hj
  rw [Option.eq_none_iff_forall_ne_some]
  intro s hs
  -- the tags of lowered instructions come after those of the readings
  obtain ⟨b, i, op, -, -, -, heq⟩ := lowers_iff.mp (origin?_eq_some_iff.mp hs)
  have htag : n = fn.tagAt s := congrArg Instr.tag heq
  have hlt : n < fn.inputs := List.mem_range.mp hn
  unfold tagAt at htag
  omega

theorem nodup_origins (fn : Func) : (fn.lower.origins.map (·.1)).Nodup := by
  have hsites : fn.instrs.Pairwise fun p q => p.1 ≠ q.1 := List.pairwise_map.mp fn.nodup_sites
  rw [origins_lower, List.Nodup, List.pairwise_map, List.pairwise_filterMap]
  refine hsites.imp_of_mem fun {p q} hp hq hpq x hx y hy hxy => hpq ?_
  obtain ⟨b, op, -, -, rfl⟩ := lowerAt?_eq_some_iff.mp hx
  obtain ⟨c, op', -, -, rfl⟩ := lowerAt?_eq_some_iff.mp hy
  exact tagAt_inj (mem_instrs_iff.mp hp) (mem_instrs_iff.mp hq) (congrArg Instr.tag hxy)

theorem nodup_code_lower (fn : Func) : fn.lower.func.code.Nodup := by
  rw [code_lower, opening]
  split
  case isTrue => exact fn.nodup_origins
  case isFalse =>
    have hreads : fn.readInputs.Nodup := List.nodup_range.map fun n m h => congrArg Instr.tag h
    refine List.nodup_append.mpr ⟨hreads, fn.nodup_origins, fun j hj k hk hjk => ?_⟩
    -- a reading has no origin, and everything else has one
    obtain ⟨p, hp, rfl⟩ := List.mem_map.mp hk
    have hnone := origin?_readInputs hj
    rw [hjk, origin?_lower hp] at hnone
    cases hnone

theorem keepsOrder_lower {fn : Func} (hbody : fn.blocks ≠ []) :
    fn.KeepsOrder fn.lower fn.readInputs where
  name := rfl
  blocks := ⟨by simp [lower], layout_lower fn⟩
  labels n hn := (block_lower (List.getElem?_eq_getElem hn)).1
  bodies n b hb := by
    refine ⟨(fn.lowerBlock n b).map (·.1), (block_lower hb).2, ?_⟩
    have hsites : (fn.lowerBlock n b).map (fun p => some p.2) = (b.sites n).map some := by
      rw [Block.sites, List.map_map]
      exact map_lowerBlock fun _ _ _ _ _ => rfl
    rw [List.map_map, ← hsites]
    exact List.map_congr_left fun p hp => origin?_lower (lowers_of_mem_lowerBlock hb hp)
  reads j hj := origin?_readInputs hj
  once := fn.nodup_code_lower
  origins j s h := by
    have hlow := origin?_eq_some_iff.mp h
    obtain ⟨b, i, op, -, hi, hop, -⟩ := lowers_iff.mp hlow
    refine ⟨mem_code_lower.mpr (Or.inr ⟨s, hlow⟩), i, hi, fun hnote => ?_⟩
    rw [lowerOp?_eq_none_iff.mpr hnote] at hop
    cases hop
  lowered s i hi hkind := by
    obtain ⟨j, hj⟩ := exists_lowers hi hkind
    refine ⟨j, origin?_lower hj, fun k hk => ?_⟩
    exact (origin?_eq_some_iff.mp hk).instr_unique hj
  size := by
    refine ⟨fn.nodup_origins, ?_⟩
    rw [Deadwood.Func.size, code_lower, opening, if_neg hbody]
    simp [readInputs, inputs]
    omega

/-! ## Uses -/

theorem computes_iff {fn : Func} {a : Arg} : (∃ v, fn.valueOf? a = some v) ↔ fn.Computes a := by
  rw [← Option.isSome_iff_exists]
  cases a with
  | result s =>
    simp only [valueOf?, resultAt?, Option.isSome_map, List.isSome_idxOf?, Computes]
    exact mem_valueSites_iff
  | _ => simp [valueOf?, Computes]

/-- The inputs are read in order. -/
theorem map_op_readInputs (fn : Func) :
    fn.readInputs.map (fun j => some j.op) =
      fn.inputArgs.zipIdx.map fun p => (fn.valueOf? p.1).map fun v => .param v p.2 := by
  refine List.ext_getElem (by simp [readInputs, inputArgs, inputs]) fun k hk _ => ?_
  have hlt : k < fn.params.length + fn.free.length := by
    simpa [readInputs, inputs] using hk
  by_cases hparam : k < fn.params.length
  · simp [readInputs, inputArgs, hparam, valueOf?]
  · have hfree : k - fn.params.length < fn.free.length := by omega
    have hsum : fn.params.length + (k - fn.params.length) = k := by omega
    simp [readInputs, inputArgs, List.getElem_append, hparam, valueOf?, hfree, hsum]

theorem lowerOp?_of_origin? {fn : Func} {j : Deadwood.Instr} {s : Site} {i : Instr}
    (h : fn.lower.origin? j = some s) (hi : fn.instr? s = some i) :
    ∃ b ∈ fn.blocks, i ∈ b.instrs ∧ fn.blocks[s.block]? = some b ∧
      fn.lowerOp? b s i = some j.op := by
  obtain ⟨b, i', op, hb, hi', hop, rfl⟩ := lowers_iff.mp (origin?_eq_some_iff.mp h)
  obtain rfl : i = i' := Option.some.inj (hi.symm.trans hi')
  obtain ⟨c, hc, hindex⟩ := Option.bind_eq_some_iff.mp hi
  obtain rfl : b = c := Option.some.inj (hb.symm.trans hc)
  exact ⟨b, List.mem_of_getElem? hb, List.mem_of_getElem? hindex, hb, hop⟩

theorem map_fst_incoming (fn : Func) {b : Block} (hpreds : b.preds.Nodup) (i : Instr) :
    (fn.incoming b i).map (·.1) = b.preds.take i.args.length := by
  rw [incoming_eq fn hpreds, List.map_map]
  exact map_fst_zip_eq_take b.preds i.args

theorem keepsUses_lower {fn : Func} (hfew : fn.valueCount < 4294967296)
    (hpreds : ∀ b ∈ fn.blocks, b.preds.Nodup)
    (hfits : ∀ b ∈ fn.blocks, ∀ i ∈ b.instrs, i.Fits b) :
    fn.KeepsUses fn.lower fn.readInputs fn.valueOf? where
  computed _ := computes_iff
  distinct _ _ _ ha hb := valueOf?_inj hfew ha hb
  isSome _ _ h := isSome_of_valueOf? hfew h
  reads := fn.map_op_readInputs
  result j s h := by
    obtain ⟨b, i, op, -, hi, hop, rfl⟩ := lowers_iff.mp (origin?_eq_some_iff.mp h)
    exact result?_lowerOp? hfew hi hop
  refs j s i h hi := by
    obtain ⟨b, hb, hmem, -, hop⟩ := lowerOp?_of_origin? h hi
    exact refs_lowerOp? hfew (hpreds b hb) (hfits b hb i hmem) hop
  places j s i h hi k := by
    obtain ⟨b, hb, hmem, -, hop⟩ := lowerOp?_of_origin? h hi
    obtain ⟨places, huses, hplaces⟩ := exists_uses_lowerOp? (hpreds b hb) (hfits b hb i hmem) hop
    have hslot : ((places[k]?).map fn.slot).bind Operand.value? =
        (places[k]?).join.bind fn.valueOf? := by
      cases places[k]? with
      | none => rfl
      | some place => exact value?_slot hfew place
    rw [huses, List.getElem?_map, hslot, hplaces]
  merges j s i b h hi hb := by
    obtain ⟨c, hc, -, hcb, hop⟩ := lowerOp?_of_origin? h hi
    obtain rfl : c = b := Option.some.inj (hcb.symm.trans hb)
    constructor
    · intro hkind
      have hphi : j.op = .phi ((fn.resultAt? s).getD Value.nothing) (fn.incoming c i) := by
        simpa [lowerOp?, hkind] using hop.symm
      exact ⟨_, _, hphi, fn.map_fst_incoming (hpreds c hc) i⟩
    · rintro ⟨dst, incoming, hphi, -⟩
      refine (isPhi_lowerOp? hop).mp ?_
      rw [hphi]
      rfl

/-! ## Control flow -/

/-- Where the instructions of a lowered block send control. -/
theorem targets_lower {fn : Func} {n : Nat} {b : Block} (hb : fn.blocks[n]? = some b)
    (hfits : ∀ i ∈ b.instrs, i.Fits b) :
    (fn.lower.func.block n).body.map (·.op.targets) =
      (if n = 0 then fn.readInputs else []).map (fun _ => []) ++
        (b.instrs.filter fun i => i.kind ≠ .debugRef).map (·.exits b) := by
  rw [(block_lower hb).2, List.map_append]
  congr 1
  · refine List.map_congr_left fun j hj => ?_
    split at hj
    · obtain ⟨m, -, rfl⟩ := List.mem_map.mp hj
      rfl
    · cases hj
  · have hinstrs : b.instrs.filter (fun i => i.kind ≠ .debugRef) =
        (b.instrs.zipIdx.filter fun p => p.1.kind ≠ .debugRef).map (·.1) := by
      have hfst := List.zipIdx_map_fst 0 b.instrs
      rw [← hfst, List.filter_map, hfst]
      rfl
    rw [hinstrs, List.map_map, List.map_map]
    refine map_lowerBlock fun i k op hi hop => ?_
    exact targets_lowerOp? (hfits i (List.mem_of_getElem? hi)) hop

theorem successors_lower {fn : Func} {n : Nat} {b : Block} (hb : fn.blocks[n]? = some b)
    (hfits : ∀ i ∈ b.instrs, i.Fits b) : (fn.lower.func.block n).successors = b.exits := by
  rw [Deadwood.Block.successors_eq, targets_lower hb hfits, List.getLast?_append, List.getLast?_map,
    Block.exits]
  cases (b.instrs.filter fun i => i.kind ≠ .debugRef).getLast? with
  | some i => rfl
  | none =>
    -- only readings of the inputs
    rw [List.getLast?_map]
    cases (if n = 0 then fn.readInputs else []).getLast? <;> rfl

/-- A lowered block leads where its source block does, from whichever of its instructions. -/
theorem exists_target_lower_iff {fn : Func} {p n : Nat} {b : Block} (hb : fn.blocks[p]? = some b)
    (hfits : ∀ i ∈ b.instrs, i.Fits b) :
    (∃ j ∈ (fn.lower.func.block p).body, n ∈ j.op.targets) ↔ ∃ i ∈ b.instrs, n ∈ i.exits b := by
  have htargets : (∃ j ∈ (fn.lower.func.block p).body, n ∈ j.op.targets) ↔
      ∃ t ∈ (fn.lower.func.block p).body.map (·.op.targets), n ∈ t := by
    simp
  rw [htargets, targets_lower hb hfits]
  constructor
  · rintro ⟨t, ht, hn⟩
    rcases List.mem_append.mp ht with hread | hinstr
    · obtain ⟨j, -, rfl⟩ := List.mem_map.mp hread
      cases hn
    · obtain ⟨i, hi, rfl⟩ := List.mem_map.mp hinstr
      exact ⟨i, List.mem_of_mem_filter hi, hn⟩
  · rintro ⟨i, hi, hn⟩
    have hkind : i.kind ≠ .debugRef := by
      intro hnote
      rw [Instr.exits, hnote] at hn
      cases hn
    have hkept : i ∈ b.instrs.filter fun i => i.kind ≠ .debugRef :=
      List.mem_filter.mpr ⟨hi, decide_eq_true hkind⟩
    exact ⟨i.exits b, List.mem_append_right _ (List.mem_map_of_mem hkept), hn⟩

/-- The predecessors of a lowered block are the blocks with an instruction that leads there. -/
theorem preds_lower {fn : Func} {n : Nat} (hn : n < fn.blocks.length) :
    (fn.lower.func.block n).preds = (List.range fn.blocks.length).filter fun p =>
      (fn.lower.func.block p).body.any fun j => decide (n ∈ j.op.targets) := by
  have hbody : ∀ p, (fn.lower.func.block p).body = (fn.lower.func.pool.map (·.body)).getD p [] :=
    fun _ => (List.getD_map _ default Deadwood.Block.body).symm
  simp only [hbody, bodies_lower]
  simp [lower, Deadwood.Func.block, hn]

theorem keepsFlow_lower {fn : Func} (hfits : ∀ b ∈ fn.blocks, ∀ i ∈ b.instrs, i.Fits b) :
    fn.KeepsFlow fn.lower where
  targets j s i b h hi hb := by
    obtain ⟨c, hc, hmem, hcb, hop⟩ := lowerOp?_of_origin? h hi
    obtain rfl : c = b := Option.some.inj (hcb.symm.trans hb)
    exact ⟨targets_lowerOp? (hfits c hc i hmem) hop, isTerminator_lowerOp? hop⟩
  successors n b hb := successors_lower hb (hfits b (List.mem_of_getElem? hb))
  preds n hn := by
    rw [preds_lower hn]
    refine ⟨List.nodup_range.filter _, fun p => ?_⟩
    simp only [List.mem_filter, List.mem_range, List.any_eq_true, decide_eq_true_eq]
    constructor
    · intro hp
      have hb : fn.blocks[p]? = some fn.blocks[p] := List.getElem?_eq_getElem hp.1
      have hfitsb := hfits _ (List.mem_of_getElem? hb)
      exact ⟨fn.blocks[p], hb, (exists_target_lower_iff hb hfitsb).mp hp.2⟩
    · rintro ⟨b, hb, hleads⟩
      have hfitsb := hfits b (List.mem_of_getElem? hb)
      exact ⟨(List.getElem?_eq_some_iff.mp hb).1, (exists_target_lower_iff hb hfitsb).mpr hleads⟩

/-! ## The theorem -/

/-- **Lowering keeps the structure of a function**: the order of its blocks and instructions, its
uses of values, and its control flow. -/
theorem lower_keeps_structure {fn : Func} (hbody : fn.blocks ≠ [])
    (hfew : fn.valueCount < 4294967296) (hpreds : ∀ b ∈ fn.blocks, b.preds.Nodup)
    (hfits : ∀ b ∈ fn.blocks, ∀ i ∈ b.instrs, i.Fits b) :
    ∃ (reads : List Deadwood.Instr) (value : Arg → Option Value),
      fn.KeepsOrder fn.lower reads ∧ fn.KeepsUses fn.lower reads value ∧
        fn.KeepsFlow fn.lower :=
  ⟨fn.readInputs, fn.valueOf?, keepsOrder_lower hbody, keepsUses_lower hfew hpreds hfits,
    keepsFlow_lower hfits⟩

/-- A function with two parameters and a captured variable, which cuts a slice with one bound of
three, starts calls, and has notes in the middle and at the end of blocks, a merge of what the loop
computes later, and results that only the last block reads. -/
def weave : Func where
  name := "weave"
  synthetic := ""
  params := [.slice, .int]
  free := [.pointer]
  blocks := [
    ⟨[⟨.debugRef, [some (.param 0)], .slice, 1, "; s is s"⟩,
      ⟨.slice, [some (.param 0), none, some (.param 1), none], .slice, 2, "slice s[:n]"⟩,
      ⟨.store, [some (.free 0), some (.result ⟨0, 1⟩)], .int, 3, "*p = t0"⟩,
      ⟨.defer, [some (.function "unlock"), some (.free 0)], .int, 4, "defer unlock(p)"⟩,
      ⟨.jump, [], .int, 0, "jump 1"⟩,
      ⟨.debugRef, [some (.result ⟨0, 1⟩)], .slice, 5, "; t is t0"⟩], [], [1]⟩,
    ⟨[⟨.phi, [some (.result ⟨1, 2⟩), some (.param 1)], .int, 0, "phi [1: t2, 0: n]"⟩,
      ⟨.debugRef, [some (.result ⟨1, 0⟩)], .int, 6, "; i is t1"⟩,
      ⟨.binary .sub, [some (.result ⟨1, 0⟩), some (.const (some 1) .int)], .int, 7, "t1 - 1:int"⟩,
      ⟨.go, [some (.result ⟨0, 1⟩), some (.result ⟨1, 2⟩)], .int, 8, "go t0(t2)"⟩,
      ⟨.branch, [some (.result ⟨1, 2⟩)], .int, 0, "if t2 goto 1 else 2"⟩], [1, 0], [1, 2]⟩,
    ⟨[⟨.changeType, [some (.result ⟨1, 0⟩)], .named .int, 9, "changetype count <- int (t1)"⟩,
      ⟨.call none, [some (.builtin "len"), some (.result ⟨0, 1⟩)], .int, 10, "len(t0)"⟩,
      ⟨.ret, [some (.result ⟨2, 0⟩), some (.result ⟨2, 1⟩)], .int, 0, "return t3, t4"⟩], [1], []⟩]

theorem weave_keeps_structure :
    (weave.blocks ≠ [] ∧ weave.valueCount < 4294967296 ∧ (∀ b ∈ weave.blocks, b.preds.Nodup) ∧
      ∀ b ∈ weave.blocks, ∀ i ∈ b.instrs, i.Fits b) ∧
    ∃ (reads : List Deadwood.Instr) (value : Arg → Option Value),
      weave.KeepsOrder weave.lower reads ∧ weave.KeepsUses weave.lower reads value ∧
        weave.KeepsFlow weave.lower := by
  have hbody : weave.blocks ≠ [] := List.cons_ne_nil _ _
  have hfew : weave.valueCount < 4294967296 := by decide
  have hpreds : ∀ b ∈ weave.blocks, b.preds.Nodup := by decide
  have hfits : ∀ b ∈ weave.blocks, ∀ i ∈ b.instrs, i.Fits b := by simp [weave, Instr.Fits]
  exact ⟨⟨hbody, hfew, hpreds, hfits⟩, lower_keeps_structure hbody hfew hpreds hfits⟩

end Func

end Source

end Deadwood
