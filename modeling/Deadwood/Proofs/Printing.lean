import Deadwood.Func.Printer
import Deadwood.Proofs.Diagnosis
import Deadwood.Proofs.Lowering

/-!
# What the text of a function tells

Two functions are `Alike` if they have one name, the same labels in the same order, and block by
block the same instructions. Instructions are compared by what they do: operands by what they read
(`Operand.reading`), targets by their labels, and what a merge receives as a map from labels.

**Theorem (`text_eq_iff`).** Two legible functions have the same text exactly if they are alike.
A function is legible if its operations are known, its calls are to callees with a name, no name
breaks a line, and labels tell apart the blocks that each merge receives from.

The text is taken apart from the outside in, and each cut is found by a character. Lines end where
lines break, and a block begins at a line that is not indented. The kind of an operation is read off
its first characters, behind the result if there is one (`Kind.ofText_text`). A name may hold any
other character, but it stands before the last parenthesis that opens, since no operand holds one.

All cuts are one lemma on lists (`append_inj_of_heads`): if `P` fails throughout `a` and holds at
the head of `s`, then `a ++ s` falls apart in one way only.
-/

namespace Deadwood

namespace Cut

/-! ## Cuts of lists -/

section Lists

variable {α : Type} {P : α → Prop}

theorem append_inj_of_heads {a b s t : List α} (ha : ∀ x ∈ a, ¬ P x) (hb : ∀ x ∈ b, ¬ P x)
    (hs : ∀ x ∈ s.head?, P x) (ht : ∀ x ∈ t.head?, P x) : a ++ s = b ++ t ↔ a = b ∧ s = t := by
  refine ⟨fun h => ?_, fun h => by rw [h.1, h.2]⟩
  induction a generalizing b with
  | nil =>
    cases b with
    | nil => exact ⟨rfl, h⟩
    | cons y b =>
      rw [List.nil_append] at h
      exact absurd (hs y (by simp [h])) (hb y List.mem_cons_self)
  | cons x a ih =>
    cases b with
    | nil =>
      rw [List.nil_append] at h
      exact absurd (ht x (by simp [← h])) (ha x List.mem_cons_self)
    | cons y b =>
      rw [List.cons_append, List.cons_append, List.cons.injEq] at h
      obtain ⟨hab, hst⟩ := ih (fun z hz => ha z (List.mem_cons_of_mem x hz))
        (fun z hz => hb z (List.mem_cons_of_mem y hz)) h.2
      exact ⟨by rw [h.1, hab], hst⟩

/-- `P` holds at the head of the list and nowhere else. -/
def Headed (P : α → Prop) : List α → Prop
  | [] => False
  | x :: rest => P x ∧ ∀ y ∈ rest, ¬ P y

theorem Headed.exists_cons {l : List α} (h : Headed P l) :
    ∃ x rest, l = x :: rest ∧ P x ∧ ∀ y ∈ rest, ¬ P y := by
  cases l with
  | nil => exact h.elim
  | cons x rest => exact ⟨x, rest, rfl, h⟩

theorem Headed.append {l m : List α} (h : Headed P l) (hm : ∀ y ∈ m, ¬ P y) : Headed P (l ++ m) := by
  obtain ⟨x, rest, rfl, hx, hrest⟩ := h.exists_cons
  refine ⟨hx, fun y hy => ?_⟩
  rcases List.mem_append.mp hy with hy | hy
  · exact hrest y hy
  · exact hm y hy

theorem head?_flatten_of_headed {xs : List (List α)} (hxs : ∀ x ∈ xs, Headed P x) :
    ∀ y ∈ xs.flatten.head?, P y := by
  cases xs with
  | nil => simp
  | cons x xs =>
    obtain ⟨d, x, rfl, hd, -⟩ := (hxs x List.mem_cons_self).exists_cons
    simpa using hd

/-- Lists that can be told where they begin fall apart in one way only. -/
theorem flatten_inj_of_headed {xs ys : List (List α)} (hxs : ∀ x ∈ xs, Headed P x)
    (hys : ∀ y ∈ ys, Headed P y) : xs.flatten = ys.flatten ↔ xs = ys := by
  refine ⟨fun h => ?_, congrArg _⟩
  induction xs generalizing ys with
  | nil =>
    cases ys with
    | nil => rfl
    | cons y ys =>
      obtain ⟨e, y, rfl, -⟩ := (hys y List.mem_cons_self).exists_cons
      cases h
  | cons x xs ih =>
    obtain ⟨d, x, rfl, -, hx⟩ := (hxs x List.mem_cons_self).exists_cons
    cases ys with
    | nil => cases h
    | cons y ys =>
      obtain ⟨e, y, rfl, -, hy⟩ := (hys y List.mem_cons_self).exists_cons
      have hxs' := fun z hz => hxs z (List.mem_cons_of_mem _ hz)
      have hys' := fun z hz => hys z (List.mem_cons_of_mem _ hz)
      simp only [List.flatten_cons, List.cons_append, List.cons.injEq] at h
      obtain ⟨hxy, hrest⟩ := (append_inj_of_heads hx hy (head?_flatten_of_headed hxs')
        (head?_flatten_of_headed hys')).mp h.2
      rw [h.1, hxy, ih hxs' hys' hrest]

theorem intercalate_cons (sep x : List α) (xs : List (List α)) :
    sep.intercalate (x :: xs) = x ++ (xs.map (sep ++ ·)).flatten := by
  induction xs generalizing x with
  | nil => simp
  | cons y xs ih => simp [List.intercalate_cons_cons, ih]

theorem append_intercalate (sep : List α) {xs : List (List α)} (hxs : xs ≠ []) :
    sep ++ sep.intercalate xs = (xs.map (sep ++ ·)).flatten := by
  cases xs with
  | nil => exact absurd rfl hxs
  | cons x xs => simp [intercalate_cons]

/-- Lists of lists that are not empty may be joined at once. -/
theorem intercalate_map_intercalate (sep : List α) {xs : List (List (List α))}
    (hxs : ∀ x ∈ xs, x ≠ []) :
    sep.intercalate (xs.map sep.intercalate) = sep.intercalate xs.flatten := by
  have hjoin : ∀ (zs : List (List (List α))), (∀ z ∈ zs, z ≠ []) →
      ((zs.map sep.intercalate).map (sep ++ ·)).flatten = (zs.flatten.map (sep ++ ·)).flatten := by
    intro zs hzs
    induction zs with
    | nil => rfl
    | cons z zs ih =>
      simp only [List.map_cons, List.flatten_cons, List.map_append, List.flatten_append,
        append_intercalate sep (hzs z List.mem_cons_self),
        ih fun y hy => hzs y (List.mem_cons_of_mem z hy)]
  cases xs with
  | nil => rfl
  | cons x xs =>
    have hx := hxs x List.mem_cons_self
    cases x with
    | nil => exact absurd rfl hx
    | cons y x =>
      rw [List.map_cons, intercalate_cons, hjoin xs fun z hz => hxs z (List.mem_cons_of_mem _ hz)]
      simp [intercalate_cons]

theorem forall₂_imp_of_mem {β : Type} {R S : α → β → Prop} {xs : List α} {ys : List β}
    (h : ∀ x ∈ xs, ∀ y ∈ ys, R x y → S x y) (hR : List.Forall₂ R xs ys) :
    List.Forall₂ S xs ys := by
  rw [List.forall₂_iff_zip] at hR ⊢
  refine ⟨hR.1, fun hxy => ?_⟩
  obtain ⟨hx, hy⟩ := List.of_mem_zip hxy
  exact h _ hx _ hy (hR.2 hxy)

theorem forall₂_congr_of_mem {β : Type} {R S : α → β → Prop} {xs : List α} {ys : List β}
    (h : ∀ x ∈ xs, ∀ y ∈ ys, R x y ↔ S x y) : List.Forall₂ R xs ys ↔ List.Forall₂ S xs ys :=
  ⟨forall₂_imp_of_mem fun x hx y hy => (h x hx y hy).mp,
    forall₂_imp_of_mem fun x hx y hy => (h x hx y hy).mpr⟩

theorem map_eq_map_iff_forall₂ {β γ : Type} {f : α → γ} {g : β → γ} {xs : List α} {ys : List β} :
    xs.map f = ys.map g ↔ List.Forall₂ (fun x y => f x = g y) xs ys := by
  rw [← List.forall₂_eq_eq_eq, List.forall₂_map_left_iff, List.forall₂_map_right_iff]

end Lists

/-! ## Cuts of texts -/

section Texts

variable {c : Char} {sep a b s t : String}

/-- A separator cuts a text where its first character stands for the first time. -/
theorem append_inj_first (hsep : sep.toList.head? = some c) (ha : c ∉ a.toList)
    (hb : c ∉ b.toList) : a ++ sep ++ s = b ++ sep ++ t ↔ a = b ∧ s = t := by
  have hhead : ∀ (u : List Char), ∀ d ∈ (sep.toList ++ u).head?, d = c := by
    intro u d hd
    rw [List.head?_append, hsep] at hd
    exact (Option.some.inj hd).symm
  have hcut := append_inj_of_heads (P := (· = c)) (fun d hd e => ha (e ▸ hd))
    (fun d hd e => hb (e ▸ hd)) (hhead s.toList) (hhead t.toList)
  rw [← String.toList_inj]
  simp only [String.toList_append, List.append_assoc]
  rw [hcut, List.append_cancel_left_eq, String.toList_inj, String.toList_inj]

/-- A separator cuts a text where its last character stands for the last time. -/
theorem append_inj_last (hsep : sep.toList.getLast? = some c) (hs : c ∉ s.toList)
    (ht : c ∉ t.toList) : a ++ sep ++ s = b ++ sep ++ t ↔ a = b ∧ s = t := by
  have hhead : ∀ (u : List Char), ∀ d ∈ (sep.toList.reverse ++ u).head?, d = c := by
    intro u d hd
    rw [List.head?_append, List.head?_reverse, hsep] at hd
    exact (Option.some.inj hd).symm
  have hcut := append_inj_of_heads (P := (· = c))
    (fun d hd e => hs (e ▸ List.mem_reverse.mp hd)) (fun d hd e => ht (e ▸ List.mem_reverse.mp hd))
    (hhead a.toList.reverse) (hhead b.toList.reverse)
  rw [← String.toList_inj, ← List.reverse_inj]
  simp only [String.toList_append, List.reverse_append]
  rw [hcut, List.append_cancel_left_eq, List.reverse_inj, List.reverse_inj, String.toList_inj,
    String.toList_inj, and_comm]

theorem intercalate_ne_empty (sep : String) {x : String} (hx : x ≠ "") (xs : List String) :
    sep.intercalate (x :: xs) ≠ "" := by
  intro h
  rw [← String.toList_inj, String.toList_intercalate, List.map_cons, intercalate_cons,
    String.toList_empty, List.append_eq_nil_iff, String.toList_eq_nil_iff] at h
  exact hx h.1

theorem intercalate_inj (hsep : Headed (· = c) sep.toList) {xs ys : List String}
    (hxs : ∀ x ∈ xs, x ≠ "" ∧ c ∉ x.toList) (hys : ∀ y ∈ ys, y ≠ "" ∧ c ∉ y.toList) :
    sep.intercalate xs = sep.intercalate ys ↔ xs = ys := by
  -- behind the first text, the list is a run of texts that each open with the separator
  have hheaded : ∀ (zs : List String), (∀ z ∈ zs, z ≠ "" ∧ c ∉ z.toList) →
      ∀ z ∈ (zs.map String.toList).map (sep.toList ++ ·), Headed (· = c) z := by
    intro zs hzs z hz
    simp only [List.mem_map] at hz
    obtain ⟨_, ⟨y, hy, rfl⟩, rfl⟩ := hz
    exact hsep.append fun d hd heq => (hzs y hy).2 (heq ▸ hd)
  refine ⟨fun h => ?_, congrArg _⟩
  cases xs with
  | nil =>
    cases ys with
    | nil => rfl
    | cons y ys => exact absurd h.symm (intercalate_ne_empty sep (hys y List.mem_cons_self).1 ys)
  | cons x xs =>
    cases ys with
    | nil => exact absurd h (intercalate_ne_empty sep (hxs x List.mem_cons_self).1 xs)
    | cons y ys =>
      have hx := hheaded xs fun z hz => hxs z (List.mem_cons_of_mem x hz)
      have hy := hheaded ys fun z hz => hys z (List.mem_cons_of_mem y hz)
      rw [← String.toList_inj, String.toList_intercalate, String.toList_intercalate, List.map_cons,
        List.map_cons, intercalate_cons, intercalate_cons,
        append_inj_of_heads (P := (· = c))
          (fun d hd e => (hxs x List.mem_cons_self).2 (e ▸ hd))
          (fun d hd e => (hys y List.mem_cons_self).2 (e ▸ hd))
          (head?_flatten_of_headed hx) (head?_flatten_of_headed hy),
        flatten_inj_of_headed hx hy, String.toList_inj,
        List.map_inj_right fun _ _ => List.append_cancel_left,
        List.map_inj_right fun _ _ => String.toList_inj.mp] at h
      rw [h.1, h.2]

theorem intercalate_map_intercalate_text {α : Type} {f : α → List String} (hf : ∀ x, f x ≠ [])
    (xs : List α) :
    sep.intercalate (xs.map fun x => sep.intercalate (f x)) = sep.intercalate (xs.flatMap f) := by
  have hjoin : sep.toList.intercalate
        ((xs.map fun x => (f x).map String.toList).map sep.toList.intercalate) =
      sep.toList.intercalate (xs.map fun x => (f x).map String.toList).flatten :=
    intercalate_map_intercalate _ (by simpa using fun x _ => hf x)
  rw [← String.toList_inj, String.toList_intercalate, String.toList_intercalate, List.map_flatMap,
    List.flatMap_def, ← hjoin, List.map_map, List.map_map]
  refine congrArg _ (List.map_congr_left fun x _ => ?_)
  exact String.toList_intercalate

theorem notMem_intercalate (hsep : c ∉ sep.toList) {xs : List String}
    (hxs : ∀ x ∈ xs, c ∉ x.toList) : c ∉ (sep.intercalate xs).toList := by
  rw [String.toList_intercalate]
  cases xs with
  | nil => simp
  | cons x xs =>
    rw [List.map_cons, intercalate_cons, List.mem_append, not_or]
    refine ⟨hxs x List.mem_cons_self, ?_⟩
    simp only [List.map_map, List.mem_flatten, List.mem_map, not_exists, not_and]
    rintro _ ⟨y, hy, rfl⟩ hc
    exact (List.mem_append.mp hc).elim hsep (hxs y (List.mem_cons_of_mem x hy))

end Texts

end Cut

open Cut

/-! ## Values, operands and labels -/

/-- The characters that numbers, values, operands and the names of blocks are written with. -/
def Symbol (c : Char) : Prop := c.isDigit = true ∨ c ∈ ['%', 'v', '_', '$', '-', 'b']

instance : DecidablePred Symbol := fun _ => inferInstanceAs (Decidable (_ ∨ _))

/-- The text is written with symbols only. -/
def Symbolic (s : String) : Prop := ∀ c ∈ s.toList, Symbol c

theorem Symbolic.notMem {s : String} (h : Symbolic s) {c : Char} (hc : ¬ Symbol c) :
    c ∉ s.toList := fun hmem => hc (h c hmem)

theorem Symbolic.append {s t : String} (hs : Symbolic s) (ht : Symbolic t) : Symbolic (s ++ t) := by
  intro c hc
  rw [String.toList_append] at hc
  exact (List.mem_append.mp hc).elim (hs c) (ht c)

theorem symbolic_nat (n : Nat) : Symbolic n.repr := by
  intro c hc
  rw [Nat.toList_repr] at hc
  exact Or.inl (Nat.isDigit_of_mem_toDigits (by decide) (by decide) hc)

theorem symbolic_int (n : Int) : Symbolic n.repr := by
  rw [Int.repr_eq_if]
  split
  · exact symbolic_nat _
  · exact Symbolic.append (by simp [Symbolic, Symbol]) (symbolic_nat _)

theorem Value.symbolic_text (v : Value) : Symbolic v.text := by
  unfold Value.text
  split
  · exact Symbolic.append (by simp [Symbolic, Symbol]) (symbolic_nat _)
  · simp [Symbolic, Symbol]

theorem Value.head?_text (v : Value) :
    v.text.toList.head? = some (if v.IsSome then '%' else '_') := by
  unfold Value.text
  split <;> simp

theorem Value.space_notMem_text (v : Value) : ' ' ∉ v.text.toList :=
  v.symbolic_text.notMem (by decide)

theorem Value.text_inj {v w : Value} : v.text = w.text ↔ v = w := by
  refine ⟨fun h => ?_, congrArg _⟩
  have hhead := v.head?_text
  rw [h, w.head?_text] at hhead
  by_cases hv : v.IsSome <;> by_cases hw : w.IsSome
  · rw [Value.text, Value.text, if_pos hv, if_pos hw, String.append_right_inj] at h
    have hnum : v.num = w.num := UInt32.toNat_inj.mp (Nat.repr_inj.mp h)
    cases v
    cases w
    exact congrArg Value.mk hnum
  · simp [hv, hw] at hhead
  · simp [hv, hw] at hhead
  · rw [not_not.mp hv, not_not.mp hw]

namespace Operand

/-- What an operand reads: the value it refers to, or the literal. -/
def reading (x : Operand) : Value ⊕ Int64 :=
  if x.value.IsSome then .inl x.value else .inr x.literal

theorem symbolic_text (x : Operand) : Symbolic x.text := by
  unfold text
  split
  · exact x.value.symbolic_text
  · exact Symbolic.append (by simp [Symbolic, Symbol]) (symbolic_int _)

theorem head?_text (x : Operand) :
    x.text.toList.head? = some (if x.value.IsSome then '%' else '$') := by
  unfold text
  split
  case isTrue h => rw [Value.head?_text, if_pos h]
  case isFalse h => simp

theorem text_ne_empty (x : Operand) : x.text ≠ "" := by
  intro h
  have hhead := x.head?_text
  rw [h] at hhead
  cases hhead

theorem text_inj {x y : Operand} : x.text = y.text ↔ x.reading = y.reading := by
  have hhead : x.text = y.text → (x.value.IsSome ↔ y.value.IsSome) := by
    intro h
    have hx := x.head?_text
    rw [h, y.head?_text] at hx
    by_cases hxs : x.value.IsSome <;> by_cases hys : y.value.IsSome <;> simp_all
  by_cases hx : x.value.IsSome <;> by_cases hy : y.value.IsSome
  · rw [text, text, reading, reading, if_pos hx, if_pos hy, if_pos hx, if_pos hy, Value.text_inj,
      Sum.inl.injEq]
  · exact iff_of_false (fun h => hy ((hhead h).mp hx)) (by simp [reading, hx, hy])
  · exact iff_of_false (fun h => hx ((hhead h).mpr hy)) (by simp [reading, hx, hy])
  · rw [text, text, reading, reading, if_neg hx, if_neg hy, if_neg hx, if_neg hy,
      String.append_right_inj, Int.toString_eq_repr, Int.toString_eq_repr, Int.repr_inj,
      Int64.toInt_inj, Sum.inr.injEq]

theorem map_text_inj {xs ys : List Operand} :
    xs.map text = ys.map text ↔ xs.map reading = ys.map reading := by
  simp only [map_eq_map_iff_forall₂, text_inj]

theorem listText_inj {xs ys : List Operand} :
    listText xs = listText ys ↔ xs.map reading = ys.map reading := by
  have hitems : ∀ (zs : List Operand), ∀ z ∈ zs.map text, z ≠ "" ∧ ',' ∉ z.toList := by
    intro zs z hz
    obtain ⟨x, -, rfl⟩ := List.mem_map.mp hz
    exact ⟨x.text_ne_empty, x.symbolic_text.notMem (by decide)⟩
  unfold listText
  rw [intercalate_inj (c := ',') (by simp [Headed]) (hitems xs) (hitems ys), map_text_inj]

theorem notMem_listText {c : Char} (hc : ¬ Symbol c) (hsep : c ∉ ", ".toList) (xs : List Operand) :
    c ∉ (listText xs).toList := by
  refine notMem_intercalate hsep fun z hz => ?_
  obtain ⟨x, -, rfl⟩ := List.mem_map.mp hz
  exact x.symbolic_text.notMem hc

end Operand

namespace Block

theorem symbolic_nameOf (l : Int) : Symbolic (nameOf l) :=
  Symbolic.append (by simp [Symbolic, Symbol]) (symbolic_int l)

theorem nameOf_inj {l m : Int} : nameOf l = nameOf m ↔ l = m := by
  rw [nameOf, nameOf, String.append_right_inj, Int.toString_eq_repr, Int.toString_eq_repr,
    Int.repr_inj]

end Block

/-! ## Merges -/

namespace Incoming

variable {label label' : BlockRef → Int} {incoming incoming' : Incoming}

/-- What is received, with the labels of the blocks it is received from. -/
def byLabel (label : BlockRef → Int) (incoming : Incoming) : List (Int × (Value ⊕ Int64)) :=
  incoming.map fun e => (label e.1, e.2.reading)

/-- What is received, in ascending order of the labels. -/
def ascending (label : BlockRef → Int) (incoming : Incoming) : List (Int × (Value ⊕ Int64)) :=
  (incoming.labelled label).map fun e => (e.1, e.2.2.reading)

theorem ascending_perm : (incoming.ascending label).Perm (incoming.byLabel label) := by
  have hperm := (List.mergeSort_perm (incoming.map fun e => (label e.1, e))
    fun a b => decide (a.1 ≤ b.1)).map fun e => (e.1, e.2.2.reading)
  rw [List.map_map] at hperm
  exact hperm

theorem map_fst_byLabel :
    (incoming.byLabel label).map Prod.fst = incoming.map fun e => label e.1 := by
  rw [byLabel, List.map_map]
  rfl

theorem pairwise_ascending (hapart : (incoming.map fun e => label e.1).Nodup) :
    (incoming.ascending label).Pairwise fun a b => a.1 < b.1 := by
  have hsorted : (incoming.ascending label).Pairwise fun a b => a.1 ≤ b.1 := by
    rw [ascending, List.pairwise_map]
    refine (List.pairwise_mergeSort ?_ ?_ _).imp fun h => of_decide_eq_true h
    · intro a b c hab hbc
      exact decide_eq_true ((of_decide_eq_true hab).trans (of_decide_eq_true hbc))
    · intro a b
      rw [← Bool.decide_or]
      exact decide_eq_true (le_total a.1 b.1)
  have hne : (incoming.ascending label).Pairwise fun a b => a.1 ≠ b.1 := by
    rw [← List.pairwise_map, ← List.Nodup, (ascending_perm.map Prod.fst).nodup_iff,
      map_fst_byLabel]
    exact hapart
  exact (hsorted.and hne).imp fun h => lt_of_le_of_ne h.1 h.2

theorem lookup_byLabel_eq_some_iff (hapart : (incoming.map fun e => label e.1).Nodup) {l : Int}
    {r : Value ⊕ Int64} :
    (incoming.byLabel label).lookup l = some r ↔ (l, r) ∈ incoming.byLabel label := by
  constructor
  · intro h
    obtain ⟨before, after, heq, -⟩ := List.lookup_eq_some_iff.mp h
    rw [heq]
    exact List.mem_append_right _ List.mem_cons_self
  · intro h
    rw [← map_fst_byLabel] at hapart
    exact Source.lookup_of_unique h fun q hq =>
      congrArg Prod.snd (List.inj_on_of_nodup_map hapart hq h rfl)

/-- What is received is written in one order, whatever the order it is recorded in. -/
theorem ascending_eq_iff (hapart : (incoming.map fun e => label e.1).Nodup)
    (hapart' : (incoming'.map fun e => label' e.1).Nodup) :
    incoming.ascending label = incoming'.ascending label' ↔
      ∀ l, (incoming.byLabel label).lookup l = (incoming'.byLabel label').lookup l := by
  have hmem : (∀ l, (incoming.byLabel label).lookup l = (incoming'.byLabel label').lookup l) ↔
      ∀ p, p ∈ incoming.byLabel label ↔ p ∈ incoming'.byLabel label' := by
    simp only [Prod.forall, ← lookup_byLabel_eq_some_iff hapart,
      ← lookup_byLabel_eq_some_iff hapart']
    exact forall_congr' fun l => Option.ext_iff
  rw [hmem]
  constructor
  · intro h p
    rw [← ascending_perm.mem_iff, h, ascending_perm.mem_iff]
  · intro h
    have hperm : (incoming.ascending label).Perm (incoming'.ascending label') := by
      have hnodup := (pairwise_ascending hapart).imp fun hlt => ne_of_apply_ne Prod.fst hlt.ne
      have hnodup' := (pairwise_ascending hapart').imp fun hlt => ne_of_apply_ne Prod.fst hlt.ne
      refine (List.perm_ext_iff_of_nodup hnodup hnodup').mpr fun p => ?_
      rw [ascending_perm.mem_iff, ascending_perm.mem_iff, h p]
    exact hperm.eq_of_pairwise (fun a b _ _ hab hba => absurd hab hba.not_gt)
      (pairwise_ascending hapart) (pairwise_ascending hapart')

/-- The text of what is received. -/
def text (label : BlockRef → Int) (incoming : Incoming) : String :=
  ", ".intercalate <| (incoming.labelled label).map fun e =>
    Block.nameOf e.1 ++ ": " ++ e.2.2.text

theorem text_inj : incoming.text label = incoming'.text label' ↔
    incoming.ascending label = incoming'.ascending label' := by
  have hitems : ∀ (label : BlockRef → Int) (incoming : Incoming),
      ∀ z ∈ (incoming.labelled label).map fun e => Block.nameOf e.1 ++ ": " ++ e.2.2.text,
        z ≠ "" ∧ ',' ∉ z.toList := by
    intro label incoming z hz
    obtain ⟨e, -, rfl⟩ := List.mem_map.mp hz
    have hname := (Block.symbolic_nameOf e.1).notMem (c := ',') (by decide)
    have hoperand := e.2.2.symbolic_text.notMem (c := ',') (by decide)
    exact ⟨by simp, by simp [hname, hoperand]⟩
  have hedge : ∀ (l m : Int) (x y : Operand),
      Block.nameOf l ++ ": " ++ x.text = Block.nameOf m ++ ": " ++ y.text ↔
        (l, x.reading) = (m, y.reading) := by
    intro l m x y
    rw [append_inj_first (c := ':') (by simp) ((Block.symbolic_nameOf l).notMem (by decide))
      ((Block.symbolic_nameOf m).notMem (by decide)), Block.nameOf_inj, Operand.text_inj,
      Prod.mk.injEq]
  rw [text, text, intercalate_inj (c := ',') (by simp [Headed]) (hitems _ _) (hitems _ _), ascending,
    ascending, map_eq_map_iff_forall₂, map_eq_map_iff_forall₂]
  simp only [hedge]

theorem newline_notMem_text : '\n' ∉ (incoming.text label).toList := by
  refine notMem_intercalate (by simp) fun z hz => ?_
  obtain ⟨e, -, rfl⟩ := List.mem_map.mp hz
  have hname := (Block.symbolic_nameOf e.1).notMem (c := '\n') (by decide)
  have hoperand := e.2.2.symbolic_text.notMem (c := '\n') (by decide)
  simp [hname, hoperand]

end Incoming

/-! ## Operations -/

namespace Op

/-- Operations that do the same, in functions where `label` and `label'` give the labels of
blocks. -/
inductive Alike (label label' : BlockRef → Int) : Op → Op → Prop
  | ret {xs ys : List Operand} (results : xs.map Operand.reading = ys.map Operand.reading) :
      Alike label label' (.ret xs) (.ret ys)
  | copy {dst : Value} {x y : Operand} (src : x.reading = y.reading) :
      Alike label label' (.copy dst x) (.copy dst y)
  | phi {dst : Value} {incoming incoming' : Incoming}
      (received : ∀ l, (incoming.byLabel label).lookup l = (incoming'.byLabel label').lookup l) :
      Alike label label' (.phi dst incoming) (.phi dst incoming')
  | call {dst : Value} {callee : Callee} {xs ys : List Operand}
      (args : xs.map Operand.reading = ys.map Operand.reading) :
      Alike label label' (.call dst callee xs) (.call dst callee ys)
  | param {dst : Value} {index : Int} : Alike label label' (.param dst index) (.param dst index)
  | branch {x y : Operand} {yes yes' no no' : BlockRef} (cond : x.reading = y.reading)
      (yes_label : label yes = label' yes') (no_label : label no = label' no') :
      Alike label label' (.branch x yes no) (.branch y yes' no')
  | jump {target target' : BlockRef} (target_label : label target = label' target') :
      Alike label label' (.jump target) (.jump target')
  | store {mem mem' src src' : Operand} (mem_reading : mem.reading = mem'.reading)
      (src_reading : src.reading = src'.reading) :
      Alike label label' (.store mem src) (.store mem' src')
  | breakpoint : Alike label label' .breakpoint .breakpoint

/-- The operation is known, and if it is a call, the callee has a name, on one line. -/
def Legible : Op → Prop
  | call _ (.named name) _ => '\n' ∉ name.toList
  | call _ .unresolved _ | unknown _ => False
  | _ => True

instance : DecidablePred Legible
  | call _ (.named name) _ => inferInstanceAs (Decidable ('\n' ∉ name.toList))
  | call _ .unresolved _ | unknown _ => inferInstanceAs (Decidable False)
  | ret _ | copy .. | phi .. | param .. | branch .. | jump _ | store .. | breakpoint =>
    inferInstanceAs (Decidable True)

/-- The kinds of operations. -/
inductive Kind where
  | ret | copy | phi | call | param | branch | jump | store | breakpoint | unknown

/-- The kind of an operation. -/
def kind : Op → Kind
  | ret _ => .ret
  | copy .. => .copy
  | phi .. => .phi
  | call .. => .call
  | param .. => .param
  | branch .. => .branch
  | jump _ => .jump
  | store .. => .store
  | breakpoint => .breakpoint
  | unknown _ => .unknown

/-- The kind of an operation, read off its text without the result. -/
def Kind.ofBare : List Char → Kind
  | 'r' :: _ => .ret
  | '%' :: _ | '$' :: _ => .copy
  | 'φ' :: _ => .phi
  | 'c' :: _ => .call
  | 'p' :: _ => .param
  | 'b' :: 'r' :: ' ' :: _ => .branch
  | 'g' :: _ => .jump
  | 's' :: _ => .store
  | 'b' :: _ => .breakpoint
  | _ => .unknown

/-- The kind of an operation, read off its text. A text that begins like a value begins with the
result, and the rest comes after an equals sign. -/
def Kind.ofText (text : List Char) : Kind :=
  if text.head? = some '%' ∨ text.head? = some '_' then
    Kind.ofBare ((text.dropWhile (· ≠ ' ')).drop 3)
  else Kind.ofBare text

theorem Kind.ofText_result (v : Value) (rest : List Char) :
    Kind.ofText (v.text.toList ++ ' ' :: '=' :: ' ' :: rest) = Kind.ofBare rest := by
  have hhead : (v.text.toList ++ ' ' :: '=' :: ' ' :: rest).head? =
      some (if v.IsSome then '%' else '_') := by
    rw [List.head?_append, v.head?_text, Option.some_or]
  have hdrop : (v.text.toList ++ ' ' :: '=' :: ' ' :: rest).dropWhile (· ≠ ' ') =
      ' ' :: '=' :: ' ' :: rest := by
    rw [List.dropWhile_append_of_pos]
    · simp
    · intro c hc
      exact decide_eq_true fun heq => v.symbolic_text.notMem (by decide) (heq ▸ hc)
  unfold Kind.ofText
  rw [hhead, hdrop, if_pos (by split <;> simp)]
  rfl

theorem Kind.ofBare_operand (x : Operand) : Kind.ofBare x.text.toList = .copy := by
  have hhead := x.head?_text
  revert hhead
  cases x.text.toList with
  | nil => exact nofun
  | cons c rest =>
    intro hhead
    rw [List.head?_cons, Option.some.injEq] at hhead
    rw [hhead]
    split <;> rfl

variable {label label' : BlockRef → Int} {op op' : Op}

/-- The text of an operation shows its kind. -/
theorem Kind.ofText_text (h : op.Legible) : Kind.ofText (op.text label).toList = op.kind := by
  cases op with
  | ret xs => simp [text, Kind.ofText, Kind.ofBare, kind]
  | copy dst src => simp [text, Kind.ofText_result, Kind.ofBare_operand, kind]
  | phi dst incoming => simp [text, Kind.ofText_result, Kind.ofBare, kind]
  | call dst callee args =>
    by_cases hdst : dst.IsSome
    · simp [text, hdst, Kind.ofText_result, Kind.ofBare, kind]
    · simp [text, hdst, Kind.ofText, Kind.ofBare, kind]
  | param dst index => simp [text, Kind.ofText_result, Kind.ofBare, kind]
  | branch cond yes no => simp [text, Kind.ofText, Kind.ofBare, kind]
  | jump target => simp [text, Kind.ofText, Kind.ofBare, kind]
  | store mem src => simp [text, Kind.ofText, Kind.ofBare, kind]
  | breakpoint => simp [text, Kind.ofText, Kind.ofBare, kind]
  | unknown text => exact h.elim

theorem text_phi (dst : Value) (incoming : Incoming) :
    (phi dst incoming).text label = dst.text ++ " = φ(" ++ incoming.text label ++ ")" := rfl

/-- The callee is all that stands before the last parenthesis that opens. -/
theorem callText_inj {callee callee' : Callee} {xs ys : List Operand} :
    "call " ++ callee.text ++ "(" ++ Operand.listText xs ++ ")" =
        "call " ++ callee'.text ++ "(" ++ Operand.listText ys ++ ")" ↔
      callee.text = callee'.text ∧ xs.map Operand.reading = ys.map Operand.reading := by
  have hparen := Operand.notMem_listText (c := '(') (by decide) (by simp)
  rw [String.append_left_inj, append_inj_last (c := '(') (by simp) (hparen xs) (hparen ys),
    String.append_right_inj, Operand.listText_inj]

theorem text_call_inj {dst dst' : Value} {callee callee' : Callee} {xs ys : List Operand}
    (heq : (call dst callee xs).text label = (call dst' callee' ys).text label') :
    dst = dst' ∧ callee.text = callee'.text ∧
      xs.map Operand.reading = ys.map Operand.reading := by
  have hhead := congrArg (fun s => s.toList.head?) heq
  by_cases hdst : dst.IsSome <;> by_cases hdst' : dst'.IsSome
  · simp only [text, if_pos hdst, if_pos hdst'] at heq
    rwa [append_inj_first (by simp) dst.space_notMem_text dst'.space_notMem_text, Value.text_inj,
      callText_inj] at heq
  -- With a result the text begins with a percent sign, and without one it does not.
  · simp [text, hdst, hdst', dst.head?_text] at hhead
  · simp [text, hdst, hdst', dst'.head?_text] at hhead
  · simp only [text, if_neg hdst, if_neg hdst'] at heq
    rw [callText_inj] at heq
    exact ⟨(not_not.mp hdst).trans (not_not.mp hdst').symm, heq⟩

theorem alike_of_text_eq (h : op.Legible) (h' : op'.Legible)
    (hapart : (op.incoming.map fun e => label e.1).Nodup)
    (hapart' : (op'.incoming.map fun e => label' e.1).Nodup)
    (heq : op.text label = op'.text label') : Alike label label' op op' := by
  have hkind : op.kind = op'.kind := by
    have hread : Kind.ofText (op.text label).toList = op.kind := Kind.ofText_text h
    rw [← hread, heq, Kind.ofText_text h']
  have hname : ∀ (l : Int), ' ' ∉ (Block.nameOf l).toList := fun l =>
    (Block.symbolic_nameOf l).notMem (by decide)
  have hstar : ∀ (x : Operand), '*' ∉ x.text.toList := fun x => x.symbolic_text.notMem (by decide)
  -- Texts of different kinds differ, so only pairs of one kind are left.
  cases op <;> cases op' <;> try (cases hkind; done)
  case ret.ret xs ys =>
    rw [text, text, String.append_left_inj, String.append_right_inj, Operand.listText_inj] at heq
    exact .ret heq
  case copy.copy dst src dst' src' =>
    rw [text, text, append_inj_first (by simp) dst.space_notMem_text dst'.space_notMem_text,
      Value.text_inj, Operand.text_inj] at heq
    obtain ⟨rfl, hsrc⟩ := heq
    exact .copy hsrc
  case phi.phi dst incoming dst' incoming' =>
    rw [text_phi, text_phi, String.append_left_inj,
      append_inj_first (by simp) dst.space_notMem_text dst'.space_notMem_text, Value.text_inj,
      Incoming.text_inj] at heq
    obtain ⟨rfl, hascending⟩ := heq
    exact .phi ((Incoming.ascending_eq_iff hapart hapart').mp hascending)
  case call.call dst callee args dst' callee' args' =>
    obtain ⟨rfl, hcallee, hargs⟩ := text_call_inj heq
    cases callee with
    | unresolved => exact h.elim
    | named name =>
      cases callee' with
      | unresolved => exact h'.elim
      | named name' =>
        obtain rfl : name = name' := hcallee
        exact .call hargs
  case param.param dst index dst' index' =>
    rw [text, text, String.append_left_inj,
      append_inj_first (by simp) dst.space_notMem_text dst'.space_notMem_text, Value.text_inj,
      Int.toString_eq_repr, Int.toString_eq_repr, Int.repr_inj] at heq
    obtain ⟨rfl, rfl⟩ := heq
    exact .param
  case branch.branch cond yes no cond' yes' no' =>
    rw [text, text, append_inj_last (c := ' ') (by simp) (hname _) (hname _),
      append_inj_last (c := ' ') (by simp) (hname _) (hname _), String.append_right_inj,
      Operand.text_inj, Block.nameOf_inj, Block.nameOf_inj] at heq
    exact .branch heq.1.1 heq.1.2 heq.2
  case jump.jump target target' =>
    rw [text, text, String.append_right_inj, Block.nameOf_inj] at heq
    exact .jump heq
  case store.store mem src mem' src' =>
    rw [text, text, String.append_left_inj,
      append_inj_last (c := '*') (by simp) (hstar _) (hstar _), String.append_right_inj,
      Operand.text_inj, Operand.text_inj] at heq
    exact .store heq.2 heq.1
  case breakpoint.breakpoint => exact .breakpoint
  case unknown.unknown => exact h.elim

theorem Alike.text_eq (halike : Alike label label' op op')
    (hapart : (op.incoming.map fun e => label e.1).Nodup)
    (hapart' : (op'.incoming.map fun e => label' e.1).Nodup) :
    op.text label = op'.text label' := by
  cases halike with
  | ret results => rw [text, text, Operand.listText_inj.mpr results]
  | copy src => rw [text, text, Operand.text_inj.mpr src]
  | @phi dst incoming incoming' received =>
    have hascending : incoming.ascending label = incoming'.ascending label' :=
      (Incoming.ascending_eq_iff hapart hapart').mpr received
    rw [text_phi, text_phi, Incoming.text_inj.mpr hascending]
  | call args => rw [text, text, Operand.listText_inj.mpr args]
  | param => rfl
  | branch cond yes_label no_label =>
    rw [text, text, Operand.text_inj.mpr cond, yes_label, no_label]
  | jump target_label => rw [text, text, target_label]
  | store mem_reading src_reading =>
    rw [text, text, Operand.text_inj.mpr mem_reading, Operand.text_inj.mpr src_reading]
  | breakpoint => rfl

theorem text_eq_iff_alike (h : op.Legible) (h' : op'.Legible)
    (hapart : (op.incoming.map fun e => label e.1).Nodup)
    (hapart' : (op'.incoming.map fun e => label' e.1).Nodup) :
    op.text label = op'.text label' ↔ Alike label label' op op' :=
  ⟨alike_of_text_eq h h' hapart hapart', fun halike => halike.text_eq hapart hapart'⟩

/-- The text of an operation is one line. -/
theorem newline_notMem_text (h : op.Legible) : '\n' ∉ (op.text label).toList := by
  have hvalue : ∀ (v : Value), '\n' ∉ v.text.toList := fun v => v.symbolic_text.notMem (by decide)
  have hoperand : ∀ (x : Operand), '\n' ∉ x.text.toList := fun x =>
    x.symbolic_text.notMem (by decide)
  have hname : ∀ (l : Int), '\n' ∉ (Block.nameOf l).toList := fun l =>
    (Block.symbolic_nameOf l).notMem (by decide)
  have hlist : ∀ (xs : List Operand), '\n' ∉ (Operand.listText xs).toList :=
    Operand.notMem_listText (by decide) (by simp)
  cases op with
  | ret results => simp [text, hlist]
  | copy dst src => simp [text, hvalue, hoperand]
  | phi dst incoming =>
    simp [text_phi, hvalue, Incoming.newline_notMem_text]
  | call dst callee args =>
    cases callee with
    | unresolved => exact h.elim
    | named name =>
      have hcallee : '\n' ∉ (Callee.named name).text.toList := h
      by_cases hdst : dst.IsSome <;> simp [text, hdst, hvalue, hlist, hcallee]
  | param dst index => simp [text, hvalue, (symbolic_int index).notMem (c := '\n') (by decide)]
  | branch cond yes no => simp [text, hoperand, hname]
  | jump target => simp [text, hname]
  | store mem src => simp [text, hoperand]
  | breakpoint => simp [text]
  | unknown text => exact h.elim

end Op

/-! ## Functions -/

/-- Blocks with one label and the same instructions. -/
structure Block.Alike (label label' : BlockRef → Int) (b b' : Block) : Prop where
  label_eq : b.label = b'.label
  body : List.Forall₂ (fun i i' : Instr => Op.Alike label label' i.op i'.op) b.body b'.body

namespace Func

/-- Functions with one name, the same labels in the same order, and block by block the same
instructions. -/
structure Alike (fn fn' : Func) : Prop where
  name : fn.name = fn'.name
  body : List.Forall₂ (Block.Alike fn.label fn'.label) fn.body fn'.body

/-- A function whose text can be read: its operations are legible, its name is on one line, and
labels tell apart the blocks that each merge receives from. -/
structure Legible (fn : Func) : Prop where
  name : '\n' ∉ fn.name.toList
  code : ∀ i ∈ fn.code, i.op.Legible
  apart : fn.IncomingApart

variable {fn fn' : Func}

/-- The lines of the text of a block. -/
def blockLines (fn : Func) (b : Block) : List String :=
  (Block.nameOf b.label ++ ":") :: b.body.map fun i => "    " ++ fn.instrText i

/-- Only the first line of a block is not indented. -/
theorem headed_blockLines (fn : Func) :
    ∀ lines ∈ fn.body.map fn.blockLines,
      Headed (fun line : String => line.toList.head? = some 'b') lines := by
  intro lines hlines
  obtain ⟨b, -, rfl⟩ := List.mem_map.mp hlines
  refine ⟨by simp [Block.nameOf], fun line hline => ?_⟩
  obtain ⟨i, -, rfl⟩ := List.mem_map.mp hline
  simp

theorem Legible.newline_notMem (h : fn.Legible) :
    ∀ line ∈ fn.body.flatMap fn.blockLines, line ≠ "" ∧ '\n' ∉ line.toList := by
  intro line hline
  obtain ⟨b, hb, hline⟩ := List.mem_flatMap.mp hline
  rcases List.mem_cons.mp hline with rfl | hline
  · have hname := (Block.symbolic_nameOf b.label).notMem (c := '\n') (by decide)
    exact ⟨by simp, by simp [hname]⟩
  · obtain ⟨i, hi, rfl⟩ := List.mem_map.mp hline
    have hop : '\n' ∉ (fn.instrText i).toList :=
      Op.newline_notMem_text (h.code i (List.mem_flatMap.mpr ⟨b, hb, hi⟩))
    exact ⟨by simp, by simp [hop]⟩

theorem blockLines_inj {b b' : Block} (h : fn.Legible) (h' : fn'.Legible) (hb : b ∈ fn.body)
    (hb' : b' ∈ fn'.body) :
    fn.blockLines b = fn'.blockLines b' ↔ Block.Alike fn.label fn'.label b b' := by
  have hops : List.Forall₂ (fun i i' => fn.instrText i = fn'.instrText i') b.body b'.body ↔
      List.Forall₂ (fun i i' => Op.Alike fn.label fn'.label i.op i'.op) b.body b'.body := by
    refine forall₂_congr_of_mem fun i hi i' hi' => ?_
    have hcode := List.mem_flatMap.mpr ⟨b, hb, hi⟩
    have hcode' := List.mem_flatMap.mpr ⟨b', hb', hi'⟩
    exact Op.text_eq_iff_alike (h.code i hcode) (h'.code i' hcode') (h.apart i hcode)
      (h'.apart i' hcode')
  rw [blockLines, blockLines, List.cons.injEq, String.append_left_inj, Block.nameOf_inj,
    map_eq_map_iff_forall₂]
  simp only [String.append_right_inj]
  rw [hops]
  exact ⟨fun halike => ⟨halike.1, halike.2⟩, fun halike => ⟨halike.label_eq, halike.body⟩⟩

theorem Legible.bodyText_inj (h : fn.Legible) (h' : fn'.Legible) :
    "\n".intercalate (fn.body.map fn.blockText) = "\n".intercalate (fn'.body.map fn'.blockText) ↔
      List.Forall₂ (Block.Alike fn.label fn'.label) fn.body fn'.body := by
  have hjoin : ∀ (g : Func), "\n".intercalate (g.body.map g.blockText) =
      "\n".intercalate (g.body.flatMap g.blockLines) := fun g =>
    intercalate_map_intercalate_text (by simp) g.body
  rw [hjoin, hjoin,
    intercalate_inj (c := '\n') (by simp [Headed]) h.newline_notMem h'.newline_notMem,
    List.flatMap_def, List.flatMap_def,
    flatten_inj_of_headed fn.headed_blockLines fn'.headed_blockLines, map_eq_map_iff_forall₂]
  exact forall₂_congr_of_mem fun b hb b' hb' => blockLines_inj h h' hb hb'

/-- Legible functions have the same text exactly if they are alike. -/
theorem text_eq_iff (h : fn.Legible) (h' : fn'.Legible) : fn.text = fn'.text ↔ fn.Alike fn' := by
  have htitle : ∀ {g : Func}, g.Legible → '\n' ∉ ("func " ++ g.name ++ " \x7b").toList := by
    intro g hg
    simp [hg.name]
  have hbreak : " \x7b\n" = " \x7b" ++ "\n" := rfl
  rw [text, text, hbreak, ← String.append_assoc, ← String.append_assoc, String.append_left_inj,
    append_inj_first (c := '\n') (by simp) (htitle h) (htitle h'), String.append_left_inj,
    String.append_right_inj, h.bodyText_inj h']
  exact ⟨fun halike => ⟨halike.1, halike.2⟩, fun halike => ⟨halike.name, halike.body⟩⟩

/-- A loop, and the same loop with its pool the other way round, what its merge receives recorded in
another order, and literals next to values. Its callee has a name that looks like a call with
arguments, and one of its labels is negative. Where the merge receives the same operands from the
other blocks, the text differs. -/
theorem loop_text_eq :
    let enter : List Instr := [⟨0, .call ⟨1⟩ (.named "g(%v2), goto bb_0") [.lit (-3)]⟩]
    let loop : Func := ⟨"loop",
      [⟨0, enter ++ [⟨1, .jump 1⟩], []⟩,
        ⟨-1, [⟨2, .phi ⟨2⟩ [(0, .ref ⟨1⟩), (1, .ref ⟨2⟩)]⟩, ⟨3, .branch (.ref ⟨2⟩) 1 0⟩], [0, 1]⟩],
      [0, 1]⟩
    let turned : Func := ⟨"loop",
      [⟨-1, [⟨8, .phi ⟨2⟩ [(0, ⟨⟨2⟩, 5⟩), (1, .ref ⟨1⟩)]⟩, ⟨9, .branch ⟨⟨2⟩, 6⟩ 0 1⟩], []⟩,
        ⟨0, enter ++ [⟨7, .jump 0⟩], []⟩],
      [1, 0]⟩
    let crossed : Func := ⟨"loop",
      [⟨0, enter ++ [⟨1, .jump 1⟩], []⟩,
        ⟨-1, [⟨2, .phi ⟨2⟩ [(1, .ref ⟨1⟩), (0, .ref ⟨2⟩)]⟩, ⟨3, .branch (.ref ⟨2⟩) 1 0⟩], [0, 1]⟩],
      [0, 1]⟩
    (loop.Legible ∧ turned.Legible ∧ crossed.Legible) ∧
      (loop.text = turned.text ∧ loop.Alike turned) ∧
      (loop.text ≠ crossed.text ∧ ¬ loop.Alike crossed) := by
  intro enter loop turned crossed
  have hloop : loop.Legible := ⟨by decide +kernel, by decide +kernel, by decide +kernel⟩
  have hturned : turned.Legible := ⟨by decide +kernel, by decide +kernel, by decide +kernel⟩
  have hcrossed : crossed.Legible := ⟨by decide +kernel, by decide +kernel, by decide +kernel⟩
  have hsame : loop.text = turned.text := by cbv
  have hdiffer : loop.text ≠ crossed.text := of_eq_false (by cbv)
  exact ⟨⟨hloop, hturned, hcrossed⟩, ⟨hsame, (text_eq_iff hloop hturned).mp hsame⟩,
    ⟨hdiffer, fun halike => hdiffer ((text_eq_iff hloop hcrossed).mpr halike)⟩⟩

end Func

end Deadwood
