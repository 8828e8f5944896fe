import Deadwood.Proofs.CheckOrder
import Deadwood.Proofs.Lowering
import Deadwood.Proofs.Session

/-!
# Lowered functions are well-formed

**Theorem (`lower_passes_check`).** If a source function is *disciplined*, what it is lowered to has
the same edges, no check finds anything wrong with it, and the search for dead instructions succeeds
with the check on or off.

Being disciplined (`Func.Disciplined`) is about the shape of the source alone. There are names for
all values, a jump or a branch has the successors that it needs, a merge has no more operands than
its block has predecessors, and successors are blocks of the function. Instructions that end a block
are last in it, merges come first but for notes, the entry has no merge, and a block that is listed
as a predecessor does lead there. Nothing is assumed about what operands refer to: an instruction
may refer to any other, before or after it, or to none.

Each part of being well-formed comes from one fact about the lowering.

* No value is defined twice: the definitions are those of the inputs and of the sites, in order
  (`definitions_lower`), and both are numbered apart.
* Blocks are in order: notes disappear and the others keep their order and their role
  (`pairwise_lowerBlock`). The entry begins with readings of the inputs, and so must have no merges.
* Merges receive along edges: a lowered block leads where its source does
  (`Disciplined.mem_successors_iff`), so the edges are found again (`hasEdge_lower`).
* What is referred to is defined (`defined_lower`).
-/

namespace Deadwood.Source

/-- Instructions of the kind end a block and say where control goes. -/
def Kind.isControl : Kind → Bool
  | branch | jump | ret => true
  | _ => false

/-- The block ends in a jump or a branch to block number `n`. -/
def Block.LeadsTo (b : Block) (n : Nat) : Prop :=
  ∃ i, b.instrs.getLast? = some i ∧
    (i.kind = .jump ∧ b.succs[0]? = some n ∨
      i.kind = .branch ∧ (b.succs[0]? = some n ∨ b.succs[1]? = some n))

/-- A block leads where its last instruction sends control. -/
theorem Block.leadsTo_iff {b : Block} {n : Nat} :
    b.LeadsTo n ↔ ∃ i, b.instrs.getLast? = some i ∧ n ∈ i.exits b := by
  refine exists_congr fun i => and_congr_right fun _ => ?_
  unfold Instr.exits
  split
  case h_1 hkind => cases b.succs <;> simp [hkind, eq_comm]
  case h_2 hkind => rcases b.succs with _ | ⟨yes, _ | ⟨no, rest⟩⟩ <;> simp [hkind, eq_comm]
  case h_3 => simp_all

theorem Block.LeadsTo.mem_succs {b : Block} {n : Nat} (h : b.LeadsTo n) : n ∈ b.succs := by
  obtain ⟨i, -, ⟨-, hsucc⟩ | ⟨-, hsucc | hsucc⟩⟩ := h <;> exact List.mem_of_getElem? hsucc

namespace Func

/-- The shape that front ends give to functions. -/
structure Disciplined (fn : Func) : Prop where
  few : fn.valueCount < 4294967296
  /-- No successor is missing, and no operand of a merge is without a predecessor. -/
  fits : ∀ b ∈ fn.blocks, ∀ i ∈ b.instrs, i.Fits b
  inside : ∀ b ∈ fn.blocks, ∀ n ∈ b.succs, n < fn.blocks.length
  control : ∀ b ∈ fn.blocks, ∀ i ∈ b.instrs.dropLast, i.kind.isControl = false
  /-- Before a merge there are only merges and notes. -/
  merges : ∀ b ∈ fn.blocks,
    b.instrs.Pairwise fun i j => j.kind = .phi → i.kind = .phi ∨ i.kind = .debugRef
  entry : ∀ b, fn.blocks[0]? = some b → ∀ i ∈ b.instrs, i.kind ≠ .phi
  preds : ∀ (n : Nat) (b : Block), fn.blocks[n]? = some b → ∀ p ∈ b.preds,
    ∃ c, fn.blocks[p]? = some c ∧ c.LeadsTo n

/-! ## Definitions -/

theorem nodup_sites (fn : Func) : (fn.instrs.map (·.1)).Nodup := by
  unfold instrs
  rw [List.map_flatten, List.map_map, List.nodup_flatten, List.forall_mem_map, List.pairwise_map]
  constructor
  · rintro ⟨b, n⟩ -
    have hsites : (b.instrs.zipIdx.map (Site.mk n ∘ Prod.snd)).Nodup := by
      rw [← List.map_map]
      exact (List.nodup_zipIdx_map_snd b.instrs).map fun k l h => (Site.mk.inj h).2
    rw [Function.comp_apply, List.map_map]
    exact hsites
  · have hnumbers : fn.blocks.zipIdx.Pairwise fun p q => p.2 ≠ q.2 :=
      List.pairwise_map.mp (List.nodup_zipIdx_map_snd fn.blocks)
    refine hnumbers.imp fun {p q} hpq => ?_
    intro s hs ht
    simp only [Function.comp_apply, List.map_map, List.mem_map] at hs ht
    obtain ⟨_, -, rfl⟩ := hs
    obtain ⟨_, -, heq⟩ := ht
    exact hpq (congrArg Site.block heq).symm

/-- **What a lowered function defines**: the inputs, then the sites with a result, in order. -/
theorem definitions_lower {fn : Func} (hfew : fn.valueCount < 4294967296) (hbody : fn.blocks ≠ []) :
    fn.lower.func.definitions =
      (List.range fn.inputs).map (fun n => Value.ofNat (n + 1)) ++
        (fn.instrs.map (·.1)).filterMap fn.resultAt? := by
  unfold Deadwood.Func.definitions
  rw [code_lower, List.filterMap_append]
  congr 1
  · have hinput : ∀ n ∈ List.range fn.inputs,
        (Op.param (Value.ofNat (n + 1)) n).result? = some (Value.ofNat (n + 1)) :=
      fun n hn => result?_input hfew (List.mem_range.mp hn)
    rw [opening, if_neg hbody, readInputs, List.filterMap_map, ← List.filterMap_eq_map]
    exact List.filterMap_congr hinput
  · rw [origins_lower, List.map_filterMap, List.filterMap_filterMap, List.filterMap_map]
    refine List.filterMap_congr fun p hp => ?_
    obtain ⟨s, i⟩ := p
    have hi : fn.instr? s = some i := mem_instrs_iff.mp hp
    obtain ⟨b, hb, -⟩ := Option.bind_eq_some_iff.mp hi
    cases hop : fn.lowerOp? b s i with
    | none =>
      -- a note, and notes have no result
      have hnone : fn.resultAt? s = none := by
        rw [← Option.not_isSome_iff_eq_none, isSome_resultAt? hi, lowerOp?_eq_none_iff.mp hop]
        exact Bool.false_ne_true
      simp [lowerAt?, hb, hop, hnone]
    | some op => simp [lowerAt?, hb, hop, result?_lowerOp? hfew hi hop]

theorem nodup_definitions_lower {fn : Func} (hfew : fn.valueCount < 4294967296) :
    fn.lower.func.definitions.Nodup := by
  by_cases hbody : fn.blocks = []
  · simp [lower, hbody, Deadwood.Func.definitions, Deadwood.Func.code, Deadwood.Func.body]
  rw [definitions_lower hfew hbody]
  refine List.nodup_append.mpr ⟨?_, ?_, fun v hv w hw => ?_⟩
  · refine List.nodup_range.map_on fun n hn m hm h => ?_
    rw [List.mem_range] at hn hm
    unfold valueCount at hfew
    have := Value.ofNat_inj (by omega) (by omega) h
    omega
  · refine fn.nodup_sites.filterMap fun s t v hs ht => ?_
    have hst : Arg.result s = Arg.result t := valueOf?_inj hfew hs ht
    exact Arg.result.inj hst
  · obtain ⟨n, hn, rfl⟩ := List.mem_map.mp hv
    obtain ⟨s, -, hs⟩ := List.mem_filterMap.mp hw
    rintro rfl
    exact resultAt?_ne_input hfew (List.mem_range.mp hn) s hs

/-! ## Blocks -/

theorem layout_lower (fn : Func) : fn.lower.func.layout = List.range fn.blocks.length := by
  simp [lower]

theorem mem_layout_lower {fn : Func} {n : Nat} {b : Block} (h : fn.blocks[n]? = some b) :
    n ∈ fn.lower.func.layout := by
  rw [layout_lower, List.mem_range]
  exact (List.getElem?_eq_some_iff.mp h).1

/-- The lowered block of a given number. -/
theorem block_lower {fn : Func} {n : Nat} {b : Block} (h : fn.blocks[n]? = some b) :
    (fn.lower.func.block n).label = n ∧
      (fn.lower.func.block n).body =
        (if n = 0 then fn.readInputs else []) ++ (fn.lowerBlock n b).map (·.1) := by
  simp [lower, Deadwood.Func.block, h]

theorem exists_of_mem_body_lower {fn : Func} {c : Deadwood.Block} (h : c ∈ fn.lower.func.body) :
    ∃ n b, fn.blocks[n]? = some b ∧ c = fn.lower.func.block n := by
  obtain ⟨n, hn, rfl⟩ := List.mem_map.mp h
  rw [layout_lower, List.mem_range] at hn
  exact ⟨n, fn.blocks[n], List.getElem?_eq_getElem hn, rfl⟩

theorem mem_lowerBlock {fn : Func} {n : Nat} {b : Block} {j : Deadwood.Instr}
    (h : j ∈ (fn.lowerBlock n b).map (·.1)) :
    ∃ k i, b.instrs[k]? = some i ∧ fn.lowerOp? b ⟨n, k⟩ i = some j.op := by
  obtain ⟨⟨j, s⟩, hmem, rfl⟩ := List.mem_map.mp h
  obtain ⟨⟨i, k⟩, hik, hlow⟩ := List.mem_filterMap.mp hmem
  obtain ⟨op, hop, heq⟩ := Option.map_eq_some_iff.mp hlow
  cases heq
  exact ⟨k, i, List.mem_zipIdx_iff_getElem?.mp hik, hop⟩

/-- What holds of the instructions of a block in order holds of the lowered ones. -/
theorem pairwise_lowerBlock {fn : Func} {n : Nat} {b : Block} {R : Instr → Instr → Prop}
    {S : Deadwood.Instr → Deadwood.Instr → Prop} (h : b.instrs.Pairwise R)
    (himp : ∀ {s t i j k l}, fn.lowerOp? b s i = some k → fn.lowerOp? b t j = some l → R i j →
      S ⟨fn.tagAt s, k⟩ ⟨fn.tagAt t, l⟩) :
    ((fn.lowerBlock n b).map (·.1)).Pairwise S := by
  rw [← List.zipIdx_map_fst 0 b.instrs, List.pairwise_map] at h
  unfold lowerBlock
  rw [List.pairwise_map, List.pairwise_filterMap]
  refine h.imp fun {p q} hpq k hk l hl => ?_
  obtain ⟨op, hop, rfl⟩ := Option.map_eq_some_iff.mp hk
  obtain ⟨op', hop', rfl⟩ := Option.map_eq_some_iff.mp hl
  exact himp hop hop' hpq

theorem isTerminator_lowerOp? {fn : Func} {b : Block} {s : Site} {i : Instr} {op : Op}
    (h : fn.lowerOp? b s i = some op) : op.isTerminator = i.kind.isControl := by
  unfold lowerOp? at h
  dsimp only at h
  split at h <;> rename_i hkind <;> cases h <;> simp_all [Op.isTerminator, Kind.isControl]

theorem isPhi_lowerOp? {fn : Func} {b : Block} {s : Site} {i : Instr} {op : Op}
    (h : fn.lowerOp? b s i = some op) : op.isPhi = true ↔ i.kind = .phi := by
  unfold lowerOp? at h
  dsimp only at h
  split at h <;> rename_i hkind <;> cases h <;> simp_all [Op.isPhi]

/-- The readings of the inputs are in the entry, and are neither merges nor the end of it. -/
theorem mem_readInputs {fn : Func} {n : Nat} {j : Deadwood.Instr}
    (h : j ∈ if n = 0 then fn.readInputs else []) :
    n = 0 ∧ j.op.isTerminator = false ∧ j.op.isPhi = false := by
  split at h
  case isTrue hn =>
    obtain ⟨m, -, rfl⟩ := List.mem_map.mp h
    exact ⟨hn, rfl, rfl⟩
  case isFalse => cases h

/-- What ends a lowered block, and every merge in it, comes from an instruction of its source. -/
theorem exists_lowerOp? {fn : Func} {n : Nat} {b : Block} (hb : fn.blocks[n]? = some b)
    {j : Deadwood.Instr} (hj : j ∈ (fn.lower.func.block n).body)
    (hrole : j.op.isTerminator = true ∨ j.op.isPhi = true) :
    ∃ k i, b.instrs[k]? = some i ∧ fn.lowerOp? b ⟨n, k⟩ i = some j.op := by
  rw [(block_lower hb).2] at hj
  refine mem_lowerBlock ((List.mem_append.mp hj).resolve_left fun hread => ?_)
  simp [mem_readInputs hread] at hrole

theorem getLast?_of_not_mem_dropLast {α : Type} {l : List α} {a : α} (ha : a ∈ l)
    (hnot : a ∉ l.dropLast) : l.getLast? = some a := by
  rcases List.eq_nil_or_concat' l with rfl | ⟨init, last, rfl⟩
  · cases ha
  · rw [List.dropLast_concat] at hnot
    rw [List.mem_append, List.mem_singleton] at ha
    rw [List.getLast?_concat, ha.resolve_left hnot]

theorem pairwise_of_dropLast {α : Type} {l : List α} {P : α → Prop}
    (h : ∀ a ∈ l.dropLast, P a) : l.Pairwise fun a _ => P a := by
  rcases List.eq_nil_or_concat' l with rfl | ⟨init, last, rfl⟩
  · exact .nil
  · rw [List.dropLast_concat] at h
    refine List.pairwise_append.mpr ⟨?_, List.pairwise_singleton _ _, fun a ha _ _ => h a ha⟩
    exact List.pairwise_of_forall_mem_list fun a ha _ _ => h a ha

theorem Disciplined.ordered {fn : Func} (h : fn.Disciplined) {n : Nat} {b : Block}
    (hb : fn.blocks[n]? = some b) : (fn.lower.func.block n).Ordered := by
  have hmem : b ∈ fn.blocks := List.mem_of_getElem? hb
  constructor <;> rw [(block_lower hb).2, List.pairwise_append]
  · refine ⟨?_, ?_, fun j hj _ _ => (mem_readInputs hj).2.1⟩
    · exact List.pairwise_of_forall_mem_list fun j hj _ _ => (mem_readInputs hj).2.1
    · refine pairwise_lowerBlock (pairwise_of_dropLast (h.control b hmem)) fun hk _ hi => ?_
      rw [isTerminator_lowerOp? hk, hi]
  · refine ⟨?_, ?_, fun j hj k hk hphi => ?_⟩
    · refine List.pairwise_of_forall_mem_list fun _ _ k hk hphi => ?_
      rw [(mem_readInputs hk).2.2] at hphi
      cases hphi
    · refine pairwise_lowerBlock (h.merges b hmem) fun hk hl hij hphi => ?_
      rw [isPhi_lowerOp? hk]
      refine (hij ((isPhi_lowerOp? hl).mp hphi)).resolve_right fun hnote => ?_
      rw [lowerOp?_eq_none_iff.mpr hnote] at hk
      cases hk
    · -- only the entry reads inputs, and it has no merge
      obtain ⟨rfl, -, -⟩ := mem_readInputs hj
      obtain ⟨m, i, hi, hop⟩ := mem_lowerBlock hk
      exact absurd ((isPhi_lowerOp? hop).mp hphi) (h.entry b hb i (List.mem_of_getElem? hi))

/-! ## Edges -/

/-- A lowered block sends control where its source does. -/
theorem mem_successors_lower {fn : Func} {p n : Nat} {c : Block} (hc : fn.blocks[p]? = some c)
    (h : c.LeadsTo n) : n ∈ (fn.lower.func.block p).successors := by
  obtain ⟨i, hlast, hi⟩ := h
  obtain ⟨init, hinit⟩ := List.getLast?_eq_some_iff.mp hlast
  obtain ⟨op, hop, hend, htarget⟩ : ∃ op, fn.lowerOp? c ⟨p, init.length⟩ i = some op ∧
      op.isTerminator = true ∧ n ∈ op.targets := by
    rcases hi with ⟨hkind, hsucc⟩ | ⟨hkind, hsucc | hsucc⟩ <;>
      simp [lowerOp?, hkind, Op.isTerminator, Op.targets, hsucc]
  have hbody : (fn.lower.func.block p).body.getLast? =
      some ⟨fn.tagAt ⟨p, init.length⟩, op⟩ := by
    rw [(block_lower hc).2, lowerBlock, hinit, List.zipIdx_append, List.filterMap_append]
    simp [hop]
  rw [Deadwood.Block.successors, Deadwood.Block.terminator?, hbody, Option.filter_some, if_pos hend]
  exact htarget

/-- A lowered block sends control nowhere else. -/
theorem Disciplined.leadsTo {fn : Func} (h : fn.Disciplined) {n t : Nat} {b : Block}
    (hb : fn.blocks[n]? = some b) (ht : t ∈ (fn.lower.func.block n).successors) : b.LeadsTo t := by
  have hmem : b ∈ fn.blocks := List.mem_of_getElem? hb
  obtain ⟨j, hlast, hend, htarget⟩ := Deadwood.Block.mem_successors_iff.mp ht
  obtain ⟨k, i, hi, hop⟩ := exists_lowerOp? hb (List.mem_of_getLast? hlast) (Or.inl hend)
  have himem : i ∈ b.instrs := List.mem_of_getElem? hi
  -- the end of the lowered block comes from the last instruction of its source
  have hsource : b.instrs.getLast? = some i := by
    refine getLast?_of_not_mem_dropLast himem fun hinit => ?_
    rw [isTerminator_lowerOp? hop, h.control b hmem i hinit] at hend
    cases hend
  rw [targets_lowerOp? (h.fits b hmem i himem) hop] at htarget
  exact Block.leadsTo_iff.mpr ⟨i, hsource, htarget⟩

/-- **A lowered block leads to the blocks that its source leads to.** -/
theorem Disciplined.mem_successors_iff {fn : Func} (h : fn.Disciplined) {n t : Nat} {b : Block}
    (hb : fn.blocks[n]? = some b) :
    t ∈ (fn.lower.func.block n).successors ↔ t ∈ fn.lower.func.layout ∧ b.LeadsTo t := by
  refine ⟨fun ht => ⟨?_, h.leadsTo hb ht⟩, fun ht => mem_successors_lower hb ht.2⟩
  rw [layout_lower, List.mem_range]
  exact h.inside b (List.mem_of_getElem? hb) t (h.leadsTo hb ht).mem_succs

theorem hasEdge_lower {fn : Func} {p n : Nat} {c : Block} (hc : fn.blocks[p]? = some c)
    (h : c.LeadsTo n) :
    fn.lower.func.hasEdge (fn.lower.func.label p) (fn.lower.func.label n) = true := by
  rw [Deadwood.Func.hasEdge_eq]
  refine decide_eq_true (List.mem_flatMap.mpr ⟨_, List.mem_map_of_mem (mem_layout_lower hc), ?_⟩)
  exact List.mem_map_of_mem (mem_successors_lower hc h)

theorem incoming_lowerOp? {fn : Func} {b : Block} {s : Site} {i : Instr} {dst : Value}
    {incoming : Incoming} (h : fn.lowerOp? b s i = some (.phi dst incoming)) :
    incoming = fn.incoming b i := by
  have hkind : i.kind = .phi := (isPhi_lowerOp? h).mp rfl
  simp only [lowerOp?, hkind, Option.some.injEq, Op.phi.injEq] at h
  exact h.2.symm

/-- A merge of a lowered function receives along its edges. -/
theorem Disciplined.hasEdge {fn : Func} (h : fn.Disciplined) {n : Nat} {b : Block}
    (hb : fn.blocks[n]? = some b) {j : Deadwood.Instr} (hj : j ∈ (fn.lower.func.block n).body)
    {dst : Value} {incoming : Incoming} (hop : j.op = .phi dst incoming) {e : BlockRef × Operand}
    (he : e ∈ incoming) :
    e.1 ∈ fn.lower.func.layout ∧
      fn.lower.func.hasEdge (fn.lower.func.label e.1) (fn.lower.func.label n) = true := by
  obtain ⟨k, i, -, hi⟩ := exists_lowerOp? hb hj (Or.inr (by rw [hop]; rfl))
  rw [hop] at hi
  rw [incoming_lowerOp? hi] at he
  obtain ⟨c, hc, hleads⟩ := h.preds n b hb e.1 (mem_incoming he).1
  exact ⟨mem_layout_lower hc, hasEdge_lower hc hleads⟩

/-! ## Well-formed functions -/

/-- **A disciplined function is lowered to a well-formed one.** -/
theorem Disciplined.wellFormed {fn : Func} (h : fn.Disciplined) : fn.lower.func.WellFormed where
  definitions := nodup_definitions_lower h.few
  ordered c hc := by
    obtain ⟨n, b, hb, rfl⟩ := exists_of_mem_body_lower hc
    exact h.ordered hb
  incoming c hc j hj dst incoming hop e he := by
    obtain ⟨n, b, hb, rfl⟩ := exists_of_mem_body_lower hc
    -- whichever block stands for the label is one that the merge receives from
    obtain ⟨d, hd, hname, -⟩ := Incoming.exists_namesake he
    rw [hname]
    exact ⟨(h.hasEdge hb hj hop hd).1, (h.hasEdge hb hj hop he).2⟩
  defined j hj v hv hundef := by
    obtain ⟨k, hk, hkv⟩ := defined_lower h.few hj hv
    exact hundef k hk hkv

theorem Disciplined.incomingInside {fn : Func} (h : fn.Disciplined) :
    fn.lower.func.IncomingInside := by
  intro j hj e he
  obtain ⟨c, hc, hj⟩ := List.mem_flatMap.mp hj
  obtain ⟨n, b, hb, rfl⟩ := exists_of_mem_body_lower hc
  obtain ⟨dst, incoming, hop, he⟩ := Op.mem_incoming_iff.mp he
  exact (h.hasEdge hb hj hop he).1

end Func

end Deadwood.Source

namespace Deadwood.Session

open Source

theorem findDead_of_wellFormed {fn : Source.Func} (h : fn.lower.func.WellFormed) {s : Session}
    {options : List Setting} {settings : Settings} {rule : Callee → Bool}
    (hset : Settings.resolve s.defaults (.oracle (some constNames.oracle) :: options) =
      .ok settings)
    (hrule : settings.effective = .ofRule rule) :
    ∃ sites, (s.findDead options fn.lower).1.2 = .ok sites := by
  have hsilent : fn.lower.func.malformed? = none := Deadwood.Func.malformed?_eq_none_iff.mpr h
  have hok : (settings.run fn.lower.func).outcome = .ok () := by
    have hrun := @Settings.run_of_checked settings _ (Or.inr hsilent)
    rw [hrule] at hrun
    exact (congrArg Prod.fst hrun).trans
      (Deadwood.Func.eliminate_of_wellFormed hsilent (fun _ hj => Func.isKnown_lower hj) rule)
  refine ⟨fn.lower.lost (settings.run fn.lower.func).after, ?_⟩
  unfold findDead
  simp only [eliminate_of_settings hset, hok]
  rfl

/-- **Lowered functions pass the check.** If a function is disciplined, the check finds nothing
wrong with what it is lowered to, in whatever order it goes through what merges receive. There are
no edges but those of the source, and they stay inside. So with the check on, or with any settings
whose oracle does not fail, the search for dead instructions succeeds in every session. -/
theorem lower_passes_check {fn : Source.Func} (h : fn.Disciplined) :
    fn.lower.func.verify = .ok () ∧
    (∀ s : Shuffle, (fn.lower.func.rearrange s fn.lower.func.layout).verify = .ok ()) ∧
    (∀ (n t : Nat) (b : Source.Block), fn.blocks[n]? = some b →
      (t ∈ (fn.lower.func.block n).successors ↔ t ∈ fn.lower.func.layout ∧ b.LeadsTo t)) ∧
    (∀ s : Session, ∃ sites, (s.findDead [.verify true] fn.lower).1.2 = .ok sites) ∧
    ∀ (s : Session) (options : List Setting) (settings : Settings) (rule : Callee → Bool),
      Settings.resolve s.defaults (.oracle (some constNames.oracle) :: options) = .ok settings →
      settings.effective = .ofRule rule →
      ∃ sites, (s.findDead options fn.lower).1.2 = .ok sites := by
  have hwell := h.wellFormed
  have hsilent : fn.lower.func.malformed? = none := Deadwood.Func.malformed?_eq_none_iff.mpr hwell
  refine ⟨?_, fun s => ?_, fun n t b => h.mem_successors_iff, fun s => ?_,
    fun s options settings rule => findDead_of_wellFormed hwell⟩
  · rw [Deadwood.Func.verify, hsilent]
  · rw [Deadwood.Func.verify, Deadwood.Func.checks_silent_iff.mpr ⟨hsilent, h.incomingInside⟩ s]
  · exact findDead_of_wellFormed hwell rfl (show _ = Oracle.ofRule constNames.contains from rfl)

/-- A function with a captured variable, a loop whose merge stands after a note and receives what the
loop computes later, a branch with one target, and a block that no instruction ends. -/
def knot : Source.Func where
  name := "knot"
  synthetic := ""
  params := [.int]
  free := [.int]
  blocks := [
    ⟨[⟨.debugRef, [some (.param 0)], .int, 1, "; n is n"⟩,
      ⟨.branch, [some (.param 0)], .int, 0, "if n goto 1 else 2"⟩], [], [1, 2]⟩,
    ⟨[⟨.debugRef, [some (.result ⟨1, 1⟩)], .int, 2, "; i is t0"⟩,
      ⟨.phi, [some (.free 0), some (.result ⟨1, 3⟩)], .int, 0, "phi [0: k, 1: t1]"⟩,
      ⟨.debugRef, [some (.result ⟨1, 1⟩)], .int, 3, "; i is t0"⟩,
      ⟨.binary .add, [some (.result ⟨1, 1⟩), some (.param 0)], .int, 4, "t0 + n"⟩,
      ⟨.jump, [], .int, 0, "jump 1"⟩], [0, 1], [1]⟩,
    ⟨[⟨.call none, [some (.function "look"), none], .int, 5, "look(nil)"⟩,
      ⟨.branch, [some (.result ⟨2, 0⟩)], .int, 0, "if t2 goto 3 else 3"⟩], [0], [3, 3]⟩,
    ⟨[⟨.phi, [some (.result ⟨2, 0⟩), some (.const none .int)], .int, 0, "phi [2: t2, 2: 0:int]"⟩,
      ⟨.makeInterface, [some (.result ⟨3, 0⟩)], .interface, 6, "make any <- int (t3)"⟩,
      ⟨.panic, [some (.result ⟨3, 1⟩)], .int, 7, "panic t4"⟩], [2, 2], []⟩]

theorem disciplined_knot : knot.Disciplined where
  few := by decide
  fits := by simp [knot, Instr.Fits]
  inside := by decide
  control := by decide
  merges := by decide
  entry := by
    rintro b ⟨⟩
    decide
  preds n b hb := by
    match n, hb with
    | 0, hb | 1, hb | 2, hb | 3, hb =>
      cases hb
      simp [knot, Block.LeadsTo]
    | n + 4, hb => cases hb

theorem knot_passes_check :
    knot.Disciplined ∧ knot.lower.func.verify = .ok () ∧
      (∀ s : Shuffle, (knot.lower.func.rearrange s knot.lower.func.layout).verify = .ok ()) ∧
      (∀ t : Nat, t ∈ (knot.lower.func.block 2).successors ↔ t = 3) ∧
      ∃ sites, ((Session.start .standard).findDead [.verify true, .trace true] knot.lower).1.2 =
        .ok sites := by
  have hknot := lower_passes_check disciplined_knot
  refine ⟨disciplined_knot, hknot.1, hknot.2.1, fun t => ?_,
    hknot.2.2.2.2 _ _ _ constNames.contains rfl rfl⟩
  rw [hknot.2.2.1 2 t _ rfl, Func.layout_lower]
  constructor
  · intro ht
    simpa using ht.2.mem_succs
  · rintro rfl
    exact ⟨by decide, by simp [Block.LeadsTo]⟩

end Deadwood.Session
