import Deadwood.Proofs.Stability

/-!
# What the check finds, and what it vouches for

`Func.Flaw fn b d` says, without reference to the check, that the defect `d` is present in the block
`b` of the function. A value that is defined at two positions (`Func.DefinedTwice`) is a matter of
the whole function.

**Theorem (`check_exact`).** Let labels tell apart the blocks that each merge receives from. Then
the check is silent exactly on the functions without a flaw and without a value defined twice. If it
speaks, it names the function, and it reports a value defined twice if there is one. Otherwise it
reports a flaw of the first block that has any.

The check stops at the first thing it finds, so what it reports is traced back through its loops
(`flaw_of_instrDefect?`, `flaw_of_bodyDefect?`, `definedTwice_of_redefinition?`), and its silence
was described before (`bodyDefect?_eq_none_iff`).

**Theorem (`incoming_of_checked`).** What the check vouches for is a matter of labels. If it is
silent, every block that a merge receives from shares its label with a block of the body from which
control may pass to a block with the label of the merge's own. Only where labels tell blocks apart
is the block itself one from which control may come. With two blocks of one label it need not be
(`twins_pass_check`).
-/

namespace Deadwood

/-- The operands that the operation receives by the block control comes from. Only a merge receives
any. -/
def Op.incoming : Op → Incoming
  | phi _ incoming => incoming
  | _ => []

theorem Op.mem_incoming_iff {op : Op} {e : BlockRef × Operand} :
    e ∈ op.incoming ↔ ∃ dst incoming, op = .phi dst incoming ∧ e ∈ incoming := by
  cases op <;> simp [Op.incoming]

theorem Op.result?_eq_some_iff {op : Op} {v : Value} :
    op.result? = some v ↔ op.def? = some v ∧ v.IsSome := by
  simp [Op.result?, Option.filter_eq_some_iff]

/-- Where labels tell apart the blocks that a merge receives from, each stands for itself. -/
theorem Incoming.namesake_eq {label : BlockRef → Int} {incoming : Incoming}
    {e : BlockRef × Operand} (hunique : ∀ d ∈ incoming, label d.1 = label e.1 → d.1 = e.1)
    (he : e ∈ incoming) : incoming.namesake label e.1 = e.1 := by
  obtain ⟨d, hd, hname, hlabel⟩ := Incoming.exists_namesake he
  rw [hname]
  exact hunique d hd hlabel

namespace Func

/-! ## Flaws -/

/-- Control may pass directly from some block of the body with label `u` to a block with label
`v`. -/
def Links (fn : Func) (u v : Int) : Prop :=
  ∃ q ∈ fn.layout, fn.label q = u ∧ ∃ s ∈ (fn.block q).successors, fn.label s = v

/-- The value is defined at two positions of the body. -/
def DefinedTwice (fn : Func) (v : Value) : Prop :=
  v.IsSome ∧ ∃ i j, [i, j].Sublist fn.code ∧ i.op.def? = some v ∧ j.op.def? = some v

/-- The defect is present in the block. -/
inductive Flaw (fn : Func) (b : Block) : Defect → Prop
  /-- Something comes after an instruction that ends a block. -/
  | early {i j : Instr} : [i, j].Sublist b.body → i.op.isTerminator = true →
      Flaw fn b (.earlyTerminator (fn.instrText i))
  /-- A merge comes after something else. -/
  | late {i j : Instr} : [i, j].Sublist b.body → i.op.isPhi = false → j.op.isPhi = true →
      Flaw fn b (.latePhi (fn.instrText j))
  /-- A merge receives from a block outside the body. -/
  | foreign {i : Instr} {e : BlockRef × Operand} :
      i ∈ b.body → e ∈ i.op.incoming → e.1 ∉ fn.layout →
      Flaw fn b (.foreignIncoming (fn.instrText i) (fn.label e.1))
  /-- A merge receives from a block from whose label control does not come. -/
  | unlinked {i : Instr} {e : BlockRef × Operand} :
      i ∈ b.body → e ∈ i.op.incoming → ¬ fn.Links (fn.label e.1) b.label →
      Flaw fn b (.falseIncoming (fn.instrText i) (fn.label e.1))
  /-- An instruction refers to a value that no instruction of the body defines. -/
  | undefined {i : Instr} {v : Value} :
      i ∈ b.body → v ∈ i.op.refs → (∀ j ∈ fn.code, j.op.def? ≠ some v) →
      Flaw fn b (.undefined v (fn.instrText i))

/-- Labels tell apart the blocks that each merge of the body receives from. -/
def IncomingApart (fn : Func) : Prop :=
  ∀ i ∈ fn.code, (i.op.incoming.map fun e => fn.label e.1).Nodup

instance (fn : Func) : Decidable fn.IncomingApart :=
  inferInstanceAs (Decidable (∀ i ∈ fn.code, (i.op.incoming.map fun e => fn.label e.1).Nodup))

variable {fn : Func} {b : Block}

theorem hasEdge_iff {u v : Int} : fn.hasEdge u v = true ↔ fn.Links u v := by
  rw [hasEdge_eq, decide_eq_true_iff]
  simp only [edges, body, Links, List.mem_flatMap, List.mem_map, Prod.mk.injEq]
  constructor
  · rintro ⟨_, ⟨q, hq, rfl⟩, s, hs, hu, hv⟩
    exact ⟨q, hq, hu, s, hs, hv⟩
  · rintro ⟨q, hq, hu, s, hs, hv⟩
    exact ⟨_, ⟨q, hq, rfl⟩, s, hs, hu, hv⟩

/-- A value that something refers to is undefined if no instruction has it for a result. -/
theorem undefined_iff {code : List Instr} {op : Op} {v : Value} (hv : v ∈ op.refs) :
    Undefined code v ↔ ∀ j ∈ code, j.op.def? ≠ some v := by
  have hsome : v.IsSome := Op.isSome_of_mem_refs hv
  simp [Undefined, Op.result?_eq_some_iff, hsome]

theorem nodup_definitions_iff : fn.definitions.Nodup ↔ ∀ v, ¬ fn.DefinedTwice v := by
  unfold definitions
  rw [List.Nodup, List.pairwise_filterMap, List.pairwise_iff_forall_sublist]
  constructor
  · rintro h v ⟨hv, i, j, hij, hi, hj⟩
    have hi' : i.op.result? = some v := Op.result?_eq_some_iff.mpr ⟨hi, hv⟩
    have hj' : j.op.result? = some v := Op.result?_eq_some_iff.mpr ⟨hj, hv⟩
    exact h hij v hi' v hj' rfl
  · intro h i j hij v hi w hj hvw
    subst hvw
    obtain ⟨hi, hv⟩ := Op.result?_eq_some_iff.mp hi
    obtain ⟨hj, -⟩ := Op.result?_eq_some_iff.mp hj
    exact h v ⟨hv, i, j, hij, hi, hj⟩

theorem IncomingApart.namesake_eq (h : fn.IncomingApart) (hb : b ∈ fn.body) {i : Instr}
    (hi : i ∈ b.body) {e : BlockRef × Operand} (he : e ∈ i.op.incoming) :
    i.op.incoming.namesake fn.label e.1 = e.1 := by
  have hnodup := h i (List.mem_flatMap.mpr ⟨b, hb, hi⟩)
  refine Incoming.namesake_eq (fun d hd hlabel => ?_) he
  exact congrArg Prod.fst (List.inj_on_of_nodup_map hnodup hd he hlabel)

theorem incomingDefect?_eq_none_iff_forall {i : Instr} :
    fn.incomingDefect? b i = none ↔ ∀ e ∈ i.op.incoming,
      i.op.incoming.namesake fn.label e.1 ∈ fn.layout ∧ fn.Links (fn.label e.1) b.label := by
  rw [incomingDefect?_eq_none_iff]
  cases hop : i.op <;> simp [Op.incoming, hasEdge_iff]

/-! ## What is reported is there -/

/-- A value that is reported as defined again is among those seen before, or is defined at two of
the positions. -/
theorem redefinition?_eq_some {seen : List Value} {ps : List (Int × Instr)} {label : Int}
    {v : Value} (h : redefinition? seen ps = some (label, v)) :
    (v ∈ seen ∧ ∃ q ∈ ps, q.2.op.result? = some v) ∨
      ∃ p q, [p, q].Sublist ps ∧ p.2.op.result? = some v ∧ q.2.op.result? = some v := by
  fun_induction redefinition? seen ps with
  | case1 seen => cases h
  | case2 seen l i rest u hu hmem =>
    cases h
    exact Or.inl ⟨hmem, (label, i), List.mem_cons_self, hu⟩
  | case3 seen l i rest u hu hmem ih =>
    rcases ih h with ⟨hseen, q, hq, hqv⟩ | ⟨p, q, hpq, hpv, hqv⟩
    · rcases List.mem_cons.mp hseen with rfl | hseen
      · have hpq : [(l, i), q].Sublist ((l, i) :: rest) :=
          (List.singleton_sublist.mpr hq).cons_cons (l, i)
        exact Or.inr ⟨(l, i), q, hpq, hu, hqv⟩
      · exact Or.inl ⟨hseen, q, List.mem_cons_of_mem _ hq, hqv⟩
    · exact Or.inr ⟨p, q, hpq.cons _, hpv, hqv⟩
  | case4 seen l i rest hnone ih =>
    rcases ih h with ⟨hseen, q, hq, hqv⟩ | ⟨p, q, hpq, hpv, hqv⟩
    · exact Or.inl ⟨hseen, q, List.mem_cons_of_mem _ hq, hqv⟩
    · exact Or.inr ⟨p, q, hpq.cons _, hpv, hqv⟩

theorem definedTwice_of_redefinition? {label : Int} {v : Value}
    (h : redefinition? [] fn.positions = some (label, v)) : fn.DefinedTwice v := by
  rcases redefinition?_eq_some h with ⟨hseen, -⟩ | ⟨p, q, hpq, hp, hq⟩
  · cases hseen
  · obtain ⟨hp, hv⟩ := Op.result?_eq_some_iff.mp hp
    obtain ⟨hq, -⟩ := Op.result?_eq_some_iff.mp hq
    have hcode : [p.2, q.2].Sublist fn.code := by
      rw [← map_positions]
      exact hpq.map Prod.snd
    exact ⟨hv, p.2, q.2, hcode, hp, hq⟩

theorem flaw_of_incomingDefect? (hapart : fn.IncomingApart) {i : Instr} {d : Defect}
    (hb : b ∈ fn.body) (hi : i ∈ b.body) (h : fn.incomingDefect? b i = some d) : fn.Flaw b d := by
  unfold incomingDefect? at h
  cases hop : i.op with
  | phi dst incoming =>
    have hincoming : i.op.incoming = incoming := by rw [hop, Op.incoming]
    rw [hop] at h
    obtain ⟨_, hmem, hreport⟩ := List.exists_of_findSome?_eq_some h
    obtain ⟨e, he, rfl⟩ := List.mem_map.mp (List.mem_mergeSort.mp hmem)
    rw [← hincoming] at he hreport
    rw [hapart.namesake_eq hb hi he] at hreport
    split at hreport
    case isTrue hout =>
      cases hreport
      exact .foreign hi he hout
    case isFalse =>
      split at hreport
      case isTrue => cases hreport
      case isFalse hedge =>
        cases hreport
        exact .unlinked hi he fun hlink => hedge (hasEdge_iff.mpr hlink)
  | _ =>
    rw [hop] at h
    cases h

theorem flaw_of_useDefect? {i : Instr} {d : Defect} (hi : i ∈ b.body)
    (h : fn.useDefect? i = some d) : fn.Flaw b d := by
  obtain ⟨v, hfind, rfl⟩ := Option.map_eq_some_iff.mp h
  have hv : v ∈ i.op.refs := List.mem_of_find?_eq_some hfind
  have hundef : Undefined fn.code v := by
    simpa [isDefined, Undefined] using List.find?_some hfind
  exact .undefined hi hv ((undefined_iff hv).mp hundef)

/-- What the check reports of an instruction, with `before` in front of it and `rest` behind it. -/
theorem flaw_of_instrDefect? (hapart : fn.IncomingApart) (hb : b ∈ fn.body)
    {before rest : List Instr} {i : Instr} (hbody : b.body = before ++ i :: rest)
    {afterOther : Bool} (hother : afterOther = true → ∃ j ∈ before, j.op.isPhi = false) {d : Defect}
    (h : fn.instrDefect? b rest.isEmpty afterOther i = some d) : fn.Flaw b d := by
  have hi : i ∈ b.body := by
    rw [hbody]
    exact List.mem_append_right _ List.mem_cons_self
  unfold instrDefect? at h
  split at h
  case isTrue hterm =>
    cases h
    rw [Bool.and_eq_true] at hterm
    cases rest with
    | nil => simp at hterm
    | cons j rest =>
      have hij : [i, j].Sublist b.body := by
        rw [hbody]
        exact List.sublist_append_of_sublist_right (by simp)
      exact .early hij hterm.1
  case isFalse =>
    split at h
    case isTrue hphi =>
      cases h
      rw [Bool.and_eq_true] at hphi
      obtain ⟨j, hj, hjphi⟩ := hother hphi.2
      have hji : [j, i].Sublist b.body := by
        rw [hbody]
        exact (List.singleton_sublist.mpr hj).append (by simp)
      exact .late hji hjphi hphi.1
    case isFalse =>
      rcases Option.or_eq_some_iff.mp h with hin | ⟨-, huse⟩
      · exact flaw_of_incomingDefect? hapart hb hi hin
      · exact flaw_of_useDefect? hi huse

/-- What the check reports of a row of instructions at the end of a block is in the block. -/
theorem flaw_of_bodyDefect? (hapart : fn.IncomingApart) (hb : b ∈ fn.body)
    {before rest : List Instr} (hbody : b.body = before ++ rest) {afterOther : Bool}
    (hother : afterOther = true → ∃ j ∈ before, j.op.isPhi = false) {d : Defect}
    (h : fn.bodyDefect? b afterOther rest = some d) : fn.Flaw b d := by
  induction rest generalizing before afterOther with
  | nil => cases h
  | cons i rest ih =>
    rw [bodyDefect?] at h
    rcases Option.or_eq_some_iff.mp h with hfirst | ⟨-, hrest⟩
    · exact flaw_of_instrDefect? hapart hb hbody hother hfirst
    · have hbody' : b.body = (before ++ [i]) ++ rest := by simpa using hbody
      refine ih hbody' ?_ hrest
      intro hafter
      rcases Bool.or_eq_true_iff.mp hafter with hafter | hi
      · obtain ⟨j, hj, hjphi⟩ := hother hafter
        exact ⟨j, List.mem_append_left _ hj, hjphi⟩
      · exact ⟨i, by simp, by simpa using hi⟩

/-! ## Silence and reports -/

/-- The check passes over exactly the blocks without a flaw. -/
theorem bodyDefect?_eq_none_iff_flawless (hapart : fn.IncomingApart) (hb : b ∈ fn.body) :
    fn.bodyDefect? b false b.body = none ↔ ∀ d, ¬ fn.Flaw b d := by
  constructor
  · intro hsilent d hflaw
    obtain ⟨hterm, hphi, -, heach⟩ := bodyDefect?_eq_none_iff.mp hsilent
    cases hflaw with
    | early hij hi =>
      rw [List.pairwise_iff_forall_sublist.mp hterm hij] at hi
      cases hi
    | late hij hi hj =>
      rw [List.pairwise_iff_forall_sublist.mp hphi hij hj] at hi
      cases hi
    | foreign hi he hout =>
      have hin := (incomingDefect?_eq_none_iff_forall.mp (heach _ hi).1 _ he).1
      rw [hapart.namesake_eq hb hi he] at hin
      exact hout hin
    | unlinked hi he hlink =>
      exact hlink (incomingDefect?_eq_none_iff_forall.mp (heach _ hi).1 _ he).2
    | undefined hi hv hundef =>
      exact useDefect?_eq_none_iff.mp (heach _ hi).2 _ hv ((undefined_iff hv).mpr hundef)
  · intro hclean
    rw [Option.eq_none_iff_forall_ne_some]
    intro d hd
    exact hclean d (flaw_of_bodyDefect? hapart hb (List.nil_append b.body).symm (by simp) hd)

/-- Second definitions come before all else. -/
theorem malformed?_of_definedTwice (h : ∃ v, fn.DefinedTwice v) :
    ∃ label v, fn.malformed? = some ⟨fn.name, label, .redefined v⟩ ∧ fn.DefinedTwice v := by
  unfold malformed?
  cases hr : redefinition? [] fn.positions with
  | none =>
    rw [redefinition?_eq_none_iff, filterMap_positions, nodup_definitions_iff] at hr
    obtain ⟨v, hv⟩ := h
    exact absurd hv (hr.1 v)
  | some found => exact ⟨found.1, found.2, rfl, definedTwice_of_redefinition? hr⟩

/-- Without second definitions, the check goes from block to block. -/
theorem malformed?_of_defined_once (h : ∀ v, ¬ fn.DefinedTwice v) :
    fn.malformed? = fn.body.findSome? fun b =>
      (fn.bodyDefect? b false b.body).map fun d => ⟨fn.name, b.label, d⟩ := by
  unfold malformed?
  have hr : redefinition? [] fn.positions = none := by
    rw [redefinition?_eq_none_iff, filterMap_positions, nodup_definitions_iff]
    exact ⟨h, by simp⟩
  rw [hr]

/-- **The check is exact.** Where labels tell apart the blocks that each merge receives from, the
check is silent exactly if no value is defined twice and no block has a flaw. What it reports
otherwise names the function. It is a value defined twice if there is one, and else a flaw of the
first block that has any. -/
theorem check_exact (hapart : fn.IncomingApart) :
    (fn.malformed? = none ↔ (∀ v, ¬ fn.DefinedTwice v) ∧ ∀ b ∈ fn.body, ∀ d, ¬ fn.Flaw b d) ∧
    ∀ m, fn.malformed? = some m →
      m.func = fn.name ∧
      ((∃ v, fn.DefinedTwice v) → ∃ v, m.defect = .redefined v ∧ fn.DefinedTwice v) ∧
      ((∀ v, ¬ fn.DefinedTwice v) → ∃ before b after, fn.body = before ++ b :: after ∧
        (∀ c ∈ before, ∀ d, ¬ fn.Flaw c d) ∧ fn.Flaw b m.defect ∧ m.block = b.label) := by
  by_cases htwice : ∃ v, fn.DefinedTwice v
  · obtain ⟨label, v, hreport, hv⟩ := malformed?_of_definedTwice htwice
    have hnot : ¬ ∀ v, ¬ fn.DefinedTwice v := fun hnone => hnone v hv
    rw [hreport]
    refine ⟨⟨nofun, fun hnone => absurd hnone.1 hnot⟩, ?_⟩
    rintro m ⟨⟩
    exact ⟨rfl, fun _ => ⟨v, rfl, hv⟩, fun hnone => absurd hnone hnot⟩
  · have honce : ∀ v, ¬ fn.DefinedTwice v := not_exists.mp htwice
    rw [malformed?_of_defined_once honce]
    constructor
    · simp only [List.findSome?_eq_none_iff, Option.map_eq_none_iff]
      refine ⟨fun hsilent => ⟨honce, fun b hb => ?_⟩, fun hclean b hb => ?_⟩
      · exact (bodyDefect?_eq_none_iff_flawless hapart hb).mp (hsilent b hb)
      · exact (bodyDefect?_eq_none_iff_flawless hapart hb).mpr (hclean.2 b hb)
    · intro m hm
      obtain ⟨before, b, after, hbody, hfound, hbefore⟩ := List.findSome?_eq_some_iff.mp hm
      obtain ⟨d, hd, rfl⟩ := Option.map_eq_some_iff.mp hfound
      have hb : b ∈ fn.body := by simp [hbody]
      refine ⟨rfl, fun h => absurd h htwice, fun _ => ⟨before, b, after, hbody, ?_, ?_, rfl⟩⟩
      · intro c hc
        have hcmem : c ∈ fn.body := by simp [hbody, hc]
        exact (bodyDefect?_eq_none_iff_flawless hapart hcmem).mp (by simpa using hbefore c hc)
      · exact flaw_of_bodyDefect? hapart hb (List.nil_append b.body).symm (by simp) hd

/-- A function with a merge out of place in its second block, and a reference to nothing in its
third. -/
def muddle : Func where
  name := "muddle"
  pool := [
    ⟨5, [⟨0, .param ⟨1⟩ 0⟩, ⟨1, .branch (.ref ⟨1⟩) 1 2⟩], []⟩,
    ⟨-6, [⟨2, .copy ⟨2⟩ (.ref ⟨1⟩)⟩, ⟨3, .phi ⟨3⟩ [(0, .ref ⟨2⟩)]⟩, ⟨4, .ret [.ref ⟨3⟩]⟩], [0]⟩,
    ⟨7, [⟨5, .ret [.ref ⟨9⟩]⟩], [0]⟩]
  layout := [0, 1, 2]

theorem muddle_checked :
    (detour.IncomingApart ∧ detour.malformed? = none ∧ (∀ v, ¬ detour.DefinedTwice v) ∧
      ∀ b ∈ detour.body, ∀ d, ¬ detour.Flaw b d) ∧
    muddle.IncomingApart ∧
      muddle.malformed? = some ⟨"muddle", -6, .latePhi "%v3 = φ(bb_5: %v2)"⟩ ∧
      ∃ before b after, muddle.body = before ++ b :: after ∧
        (∀ c ∈ before, ∀ d, ¬ muddle.Flaw c d) ∧
        muddle.Flaw b (.latePhi "%v3 = φ(bb_5: %v2)") ∧ -6 = b.label := by
  have hdetour : detour.IncomingApart := by decide
  have hsilent : detour.malformed? = none := by cbv
  have hmuddle : muddle.IncomingApart := by decide
  have hreport : muddle.malformed? = some ⟨"muddle", -6, .latePhi "%v3 = φ(bb_5: %v2)"⟩ := by cbv
  have honce : ∀ v, ¬ muddle.DefinedTwice v := nodup_definitions_iff.mp (by decide)
  refine ⟨⟨hdetour, hsilent, (check_exact hdetour).1.mp hsilent⟩, hmuddle, hreport, ?_⟩
  exact ((check_exact hmuddle).2 _ hreport).2.2 honce

/-! ## Labels and blocks -/

/-- The blocks of the body, and those that control may pass to from there. -/
def flowBlocks (fn : Func) : List BlockRef :=
  fn.layout ++ fn.layout.flatMap fun r => (fn.block r).successors

/-- Labels tell the blocks apart that control may pass through. -/
def LabelsApart (fn : Func) : Prop :=
  ∀ p ∈ fn.flowBlocks, ∀ q ∈ fn.flowBlocks, fn.label p = fn.label q → p = q

instance (fn : Func) : Decidable fn.LabelsApart :=
  inferInstanceAs (Decidable
    (∀ p ∈ fn.flowBlocks, ∀ q ∈ fn.flowBlocks, fn.label p = fn.label q → p = q))

/-- Where labels tell blocks apart, a link between labels is one between the blocks. -/
theorem LabelsApart.mem_successors (h : fn.LabelsApart) {p r : BlockRef} (hp : p ∈ fn.layout)
    (hr : r ∈ fn.layout) (hlink : fn.Links (fn.label p) (fn.label r)) :
    r ∈ (fn.block p).successors := by
  obtain ⟨q, hq, hqp, s, hs, hsr⟩ := hlink
  have hbody : ∀ t ∈ fn.layout, t ∈ fn.flowBlocks := fun t ht => List.mem_append_left _ ht
  have hsflow : s ∈ fn.flowBlocks :=
    List.mem_append_right _ (List.mem_flatMap.mpr ⟨q, hq, hs⟩)
  rw [h q (hbody q hq) p (hbody p hp) hqp, h s hsflow r (hbody r hr) hsr] at hs
  exact hs

/-- **What the check vouches for about merges.** Let the check be silent, and let a merge of block
`r` receive from a block. Then the merge receives from a block of the body with the same label, and
from this label there is a link to the label of `r`. If the merge receives from no other block with
that label, the block itself is in the body. If moreover labels tell blocks apart, control may pass
from it to `r`. -/
theorem incoming_of_checked (h : fn.malformed? = none) {r : BlockRef} (hr : r ∈ fn.layout)
    {i : Instr} (hi : i ∈ (fn.block r).body) {e : BlockRef × Operand} (he : e ∈ i.op.incoming) :
    (∃ d ∈ i.op.incoming, fn.label d.1 = fn.label e.1 ∧ d.1 ∈ fn.layout) ∧
    fn.Links (fn.label e.1) (fn.label r) ∧
    ((∀ d ∈ i.op.incoming, fn.label d.1 = fn.label e.1 → d.1 = e.1) →
      e.1 ∈ fn.layout ∧ (fn.LabelsApart → r ∈ (fn.block e.1).successors)) := by
  have hsilent : fn.incomingDefect? (fn.block r) i = none :=
    incomingDefect?_eq_none_iff.mpr
      ((malformed?_eq_none_iff.mp h).incoming _ (List.mem_map_of_mem hr) i hi)
  obtain ⟨hin, hlink⟩ := incomingDefect?_eq_none_iff_forall.mp hsilent e he
  obtain ⟨d, hd, hname, hlabel⟩ := Incoming.exists_namesake he
  refine ⟨⟨d, hd, hlabel, hname ▸ hin⟩, hlink, fun hunique => ?_⟩
  rw [Incoming.namesake_eq hunique he] at hin
  exact ⟨hin, fun hapart => hapart.mem_successors hin hr hlink⟩

theorem detour_incoming :
    detour.malformed? = none ∧ detour.LabelsApart ∧
      ∀ e ∈ [(0, Operand.lit 0), (1, .ref ⟨4⟩)],
        e.1 ∈ detour.layout ∧ 1 ∈ (detour.block e.1).successors := by
  have hsilent : detour.malformed? = none := by cbv
  have hapart : detour.LabelsApart := by decide
  have hmerge : ⟨3, .phi ⟨3⟩ [(0, .lit 0), (1, .ref ⟨4⟩)]⟩ ∈ (detour.block 1).body := by decide
  have hunique : ∀ e ∈ [(0, Operand.lit 0), (1, .ref ⟨4⟩)],
      ∀ d ∈ [(0, Operand.lit 0), (1, .ref ⟨4⟩)],
        detour.label d.1 = detour.label e.1 → d.1 = e.1 := by decide
  refine ⟨hsilent, hapart, fun e he => ?_⟩
  have hchecked := incoming_of_checked hsilent (by decide) hmerge he
  have hreal := hchecked.2.2 (hunique e he)
  exact ⟨hreal.1, hreal.2 hapart⟩

/-- Two blocks share the label `0`. Control passes to the last block from one of them, and the merge
there receives from the other. -/
def twins : Func where
  name := "twins"
  pool := [
    ⟨0, [⟨0, .jump 2⟩], []⟩,
    ⟨0, [⟨1, .ret []⟩], []⟩,
    ⟨2, [⟨2, .phi ⟨1⟩ [(1, .lit 1)]⟩, ⟨3, .ret [.ref ⟨1⟩]⟩], [0]⟩]
  layout := [0, 1, 2]

/-- A merge receives from a block of the body and from one outside that has the same label. -/
def stowaway : Func where
  name := "stowaway"
  pool := [
    ⟨0, [⟨0, .jump 1⟩], []⟩,
    ⟨1, [⟨1, .phi ⟨1⟩ [(2, .lit 5), (0, .lit 1)]⟩, ⟨2, .ret [.ref ⟨1⟩]⟩], [0]⟩,
    ⟨0, [], []⟩]
  layout := [0, 1]

/-- A function may pass the check although a merge receives from a block from which control does not
come, or from a block outside the body. -/
theorem twins_pass_check :
    (twins.malformed? = none ∧ ∃ r ∈ twins.layout, ∃ i ∈ (twins.block r).body,
      ∃ e ∈ i.op.incoming, e.1 ∈ twins.layout ∧ r ∉ (twins.block e.1).successors) ∧
    (stowaway.malformed? = none ∧ ∃ r ∈ stowaway.layout, ∃ i ∈ (stowaway.block r).body,
      ∃ e ∈ i.op.incoming, e.1 ∉ stowaway.layout) := by
  refine ⟨⟨by cbv, 2, by decide, ⟨2, .phi ⟨1⟩ [(1, .lit 1)]⟩, by decide, (1, .lit 1), ?_⟩,
    ⟨by cbv, 1, by decide, ⟨1, .phi ⟨1⟩ [(2, .lit 5), (0, .lit 1)]⟩, by decide, (2, .lit 5), ?_⟩⟩
  · decide
  · decide

end Func

end Deadwood
