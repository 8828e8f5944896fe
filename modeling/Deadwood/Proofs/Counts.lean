import Mathlib
import Deadwood.Settings

/-!
# Numerals and counts

A numeral is a run of digits in which an underscore may stand between two digits, maybe after a base
mark: `Spells` is the grammar, and gives the number that a text spells.

**Theorem (`count_exact`).** What a variable sets a count to depends on the number that is spelled and
not on the spelling. A number that does not fit 64 bits is invalid, like a text that spells none; one
that does not fit 31 bits is too large, and one below the least count too small. So the number of
workers, wherever it comes from, is positive and fits 31 bits.

A text is read by two functions: one adds up the digits and skips underscores, the other looks at the
underscores only. Together they read digits as the grammar has them, at the front of a text and after
a digit or a base mark (`reads_digits`), and so `read?` is exact (`read?_eq_some_iff`).
-/

namespace Deadwood

namespace Numeral

/-! ## The grammar -/

/-- The character is the digit of value `d`, in lower or upper case. -/
def IsDigit (c : Char) (d : Nat) : Prop :=
  "0123456789abcdef".toList[d]? = some c ∨ "0123456789ABCDEF".toList[d]? = some c

/-- Digits of a base, at least one, with their values. An underscore may stand between two of them. -/
inductive Digits (base : Nat) : List Char → List Nat → Prop
  | one {c : Char} {d : Nat} : IsDigit c d → d < base → Digits base [c] [d]
  | next {c : Char} {d : Nat} {cs : List Char} {ds : List Nat} :
      IsDigit c d → d < base → Digits base cs ds → Digits base (c :: cs) (d :: ds)
  | apart {c : Char} {d : Nat} {cs : List Char} {ds : List Nat} :
      IsDigit c d → d < base → Digits base cs ds → Digits base (c :: '_' :: cs) (d :: ds)

/-- The number that digits stand for, the most significant one first. -/
def value (base : Nat) (ds : List Nat) : Nat := Nat.ofDigits base ds.reverse

/-- The letter after a `0` that stands for a base, in lower or upper case. -/
inductive Mark : Char → Nat → Prop
  | binary {m : Char} : m ∈ ['b', 'B'] → Mark m 2
  | octal {m : Char} : m ∈ ['o', 'O'] → Mark m 8
  | hexadecimal {m : Char} : m ∈ ['x', 'X'] → Mark m 16

/-- The text spells the number. An underscore may stand before the digits that follow a base mark. -/
inductive Spells : List Char → Nat → Prop
  | zero : Spells ['0'] 0
  | decimal {cs : List Char} {ds : List Nat} :
      Digits 10 cs ds → cs.head? ≠ some '0' → Spells cs (value 10 ds)
  | octal {gap cs : List Char} {ds : List Nat} :
      gap ∈ [[], ['_']] → Digits 8 cs ds → Spells ('0' :: (gap ++ cs)) (value 8 ds)
  | marked {m : Char} {base : Nat} {gap cs : List Char} {ds : List Nat} :
      Mark m base → gap ∈ [[], ['_']] → Digits base cs ds →
        Spells ('0' :: m :: (gap ++ cs)) (value base ds)

/-! ## Reading digits -/

instance (c : Char) (d : Nat) : Decidable (IsDigit c d) := inferInstanceAs (Decidable (_ ∨ _))

theorem toNat_lt_of_digit? {c : Char} {d : Nat} (h : digit? c = some d) : c.toNat < 128 := by
  have hupper : ∀ a : Char, c ≤ a → a.toNat < 128 → c.toNat < 128 := by
    intro a hle ha
    exact Nat.lt_of_le_of_lt hle ha
  unfold digit? at h
  split at h
  case isTrue hc => exact hupper '9' hc.2 (by decide)
  case isFalse =>
    split at h
    case isTrue hc => exact hupper 'z' hc.2 (by decide)
    case isFalse =>
      split at h
      case isTrue hc => exact hupper 'Z' hc.2 (by decide)
      case isFalse => cases h

theorem toNat_lt_of_isDigit {c : Char} {d : Nat} (h : IsDigit c d) : c.toNat < 128 := by
  have hascii : ∀ c ∈ "0123456789abcdef".toList ++ "0123456789ABCDEF".toList, c.toNat < 128 := by
    simp
  apply hascii
  rcases h with h | h
  · exact List.mem_append_left _ (List.mem_of_getElem? h)
  · exact List.mem_append_right _ (List.mem_of_getElem? h)

/-- Below sixteen, digits are read as the grammar has them. -/
theorem digit?_eq_some_iff {c : Char} {d : Nat} (hd : d < 16) : digit? c = some d ↔ IsDigit c d := by
  -- All digits are ASCII characters, and for these it can be looked up.
  have htable : ∀ n < 128, ∀ d < 16,
      digit? (Char.ofNat n) = some d ↔ IsDigit (Char.ofNat n) d := by decide +kernel
  have hascii : c.toNat < 128 → (digit? c = some d ↔ IsDigit c d) := by
    intro hc
    simpa using htable c.toNat hc d hd
  constructor
  · intro h
    exact (hascii (toNat_lt_of_digit? h)).mp h
  · intro h
    exact (hascii (toNat_lt_of_isDigit h)).mpr h

theorem not_isDigit_underscore (d : Nat) : ¬ IsDigit '_' d := by
  intro h
  rcases h with h | h <;> exact absurd (List.mem_of_getElem? h) (by simp)

/-- What may stand after a digit or a base mark: nothing, or digits, maybe after an underscore. -/
def Follows (base : Nat) (cs : List Char) (ds : List Nat) : Prop :=
  cs = [] ∧ ds = [] ∨ ∃ gap ∈ [[], ['_']], ∃ rest, cs = gap ++ rest ∧ Digits base rest ds

theorem digits_cons_iff {base : Nat} {c : Char} {cs : List Char} {ds : List Nat} :
    Digits base (c :: cs) ds ↔
      ∃ d rest, ds = d :: rest ∧ IsDigit c d ∧ d < base ∧ Follows base cs rest := by
  constructor
  · intro h
    cases h with
    | one hd hlt => exact ⟨_, [], rfl, hd, hlt, Or.inl ⟨rfl, rfl⟩⟩
    | next hd hlt h => exact ⟨_, _, rfl, hd, hlt, Or.inr ⟨[], by simp, cs, rfl, h⟩⟩
    | @apart _ d xs rest hd hlt h => exact ⟨_, _, rfl, hd, hlt, Or.inr ⟨['_'], by simp, xs, rfl, h⟩⟩
  · rintro ⟨d, rest, rfl, hd, hlt, ⟨rfl, rfl⟩ | ⟨gap, hgap, xs, rfl, h⟩⟩
    · exact .one hd hlt
    · simp only [List.mem_cons, List.not_mem_nil, or_false] at hgap
      rcases hgap with rfl | rfl
      · exact .next hd hlt h
      · exact .apart hd hlt h

theorem follows_cons_iff {base : Nat} {c : Char} {cs : List Char} {ds : List Nat} :
    Follows base (c :: cs) ds ↔ c = '_' ∧ Digits base cs ds ∨ Digits base (c :: cs) ds := by
  constructor
  · rintro (⟨h, -⟩ | ⟨gap, hgap, rest, hrest, h⟩)
    · cases h
    · simp only [List.mem_cons, List.not_mem_nil, or_false] at hgap
      rcases hgap with rfl | rfl
      · rw [List.nil_append] at hrest
        exact Or.inr (hrest ▸ h)
      · cases hrest
        exact Or.inl ⟨rfl, h⟩
  · rintro (⟨rfl, h⟩ | h)
    · exact Or.inr ⟨['_'], by simp, cs, rfl, h⟩
    · exact Or.inr ⟨[], by simp, c :: cs, rfl, h⟩

/-- The number that digits stand for when they come after others of value `acc`. -/
def extend (base acc : Nat) (ds : List Nat) : Nat := ds.foldl (fun a d => a * base + d) acc

theorem extend_zero (base : Nat) (ds : List Nat) : extend base 0 ds = value base ds := by
  rw [value, Nat.ofDigits_eq_foldr, List.foldr_reverse, extend]
  congr
  funext a d
  simp [mul_comm, add_comm]

section

variable {base : Nat}

theorem digits?_cons (hbase : base ≤ 16) {acc n : Nat} {c : Char} {cs : List Char} (hc : c ≠ '_') :
    digits? base acc (c :: cs) = some n ↔
      ∃ d, IsDigit c d ∧ d < base ∧ digits? base (acc * base + d) cs = some n := by
  rw [digits?, if_neg hc]
  constructor
  · intro h
    split at h
    case h_1 d hd =>
      split at h
      case isTrue hlt =>
        exact ⟨d, (digit?_eq_some_iff (Nat.lt_of_lt_of_le hlt hbase)).mp hd, hlt, h⟩
      case isFalse => cases h
    case h_2 => cases h
  · rintro ⟨d, hd, hlt, h⟩
    rw [(digit?_eq_some_iff (Nat.lt_of_lt_of_le hlt hbase)).mpr hd]
    simpa [hlt] using h

/-- A text that starts with a digit is read as digits if what follows the digit is. -/
theorem reads_cons (hbase : base ≤ 16) {c : Char} {cs : List Char} (hc : c ≠ '_')
    (hfollows : ∀ acc n, separated true cs = true ∧ digits? base acc cs = some n ↔
      ∃ ds, Follows base cs ds ∧ extend base acc ds = n) (acc n : Nat) :
    separated true cs = true ∧ digits? base acc (c :: cs) = some n ↔
      ∃ ds, Digits base (c :: cs) ds ∧ extend base acc ds = n := by
  rw [digits?_cons hbase hc]
  constructor
  · rintro ⟨hsep, d, hd, hlt, hn⟩
    obtain ⟨ds, hds, hext⟩ := (hfollows _ n).mp ⟨hsep, hn⟩
    exact ⟨d :: ds, digits_cons_iff.mpr ⟨d, ds, rfl, hd, hlt, hds⟩, hext⟩
  · rintro ⟨ds, hds, hext⟩
    obtain ⟨d, rest, rfl, hd, hlt, hrest⟩ := digits_cons_iff.mp hds
    obtain ⟨hsep, hn⟩ := (hfollows (acc * base + d) n).mpr ⟨rest, hrest, hext⟩
    exact ⟨hsep, d, hd, hlt, hn⟩

/-- **The two ways of reading together read digits as the grammar has them**, at the front of a text
and after a digit. -/
theorem reads_digits (hbase : base ≤ 16) (cs : List Char) :
    (∀ acc n, (cs ≠ [] ∧ separated false cs = true) ∧ digits? base acc cs = some n ↔
      ∃ ds, Digits base cs ds ∧ extend base acc ds = n) ∧
    ∀ acc n, separated true cs = true ∧ digits? base acc cs = some n ↔
      ∃ ds, Follows base cs ds ∧ extend base acc ds = n := by
  induction cs with
  | nil =>
    refine ⟨fun acc n => ⟨?_, ?_⟩, fun acc n => ⟨?_, ?_⟩⟩
    · rintro ⟨⟨hne, -⟩, -⟩
      exact absurd rfl hne
    · rintro ⟨ds, hds, -⟩
      cases hds
    · rintro ⟨-, hn⟩
      exact ⟨[], Or.inl ⟨rfl, rfl⟩, Option.some.inj hn⟩
    · rintro ⟨ds, ⟨-, rfl⟩ | ⟨gap, -, rest, hrest, hds⟩, rfl⟩
      · exact ⟨rfl, rfl⟩
      · obtain ⟨-, rfl⟩ := List.append_eq_nil_iff.mp hrest.symm
        cases hds
  | cons c cs ih =>
    obtain ⟨hleads, hfollows⟩ := ih
    by_cases hc : c = '_'
    · subst hc
      have hno : ∀ ds, ¬ Digits base ('_' :: cs) ds := by
        intro ds hds
        obtain ⟨d, -, -, hd, -⟩ := digits_cons_iff.mp hds
        exact not_isDigit_underscore d hd
      refine ⟨fun acc n => ?_, fun acc n => ?_⟩
      · simp [hno, separated]
      · simpa [hno, separated, follows_cons_iff, digits?] using hleads acc n
    · have hcons := reads_cons hbase hc hfollows
      refine ⟨fun acc n => ?_, fun acc n => ?_⟩
      · simpa [separated, hc] using hcons acc n
      · simpa [separated, hc, follows_cons_iff] using hcons acc n

/-- At the front of a text there have to be digits. -/
theorem inBase?_false (hbase : base ≤ 16) {cs : List Char} (hne : cs ≠ []) {n : Nat} :
    inBase? base false cs = some n ↔ ∃ ds, Digits base cs ds ∧ value base ds = n := by
  have h := (reads_digits hbase cs).1 0 n
  simp only [extend_zero] at h
  rw [← h, inBase?]
  by_cases hsep : separated false cs = true <;> simp [hsep, hne]

/-- After a base mark there may be nothing, or an underscore before the digits. -/
theorem inBase?_true (hbase : base ≤ 16) {cs : List Char} {n : Nat} :
    inBase? base true cs = some n ↔ ∃ ds, Follows base cs ds ∧ value base ds = n := by
  have h := (reads_digits hbase cs).2 0 n
  simp only [extend_zero] at h
  rw [← h, inBase?]
  by_cases hsep : separated true cs = true <;> simp [hsep]

end

/-! ## Reading numerals -/

theorem Mark.mem_table {m : Char} {base : Nat} (h : Mark m base) :
    (m, base) ∈ [('b', 2), ('B', 2), ('o', 8), ('O', 8), ('x', 16), ('X', 16)] := by
  cases h <;> simp_all

theorem base?_eq_some_iff {m : Char} {base : Nat} : base? m = some base ↔ Mark m base := by
  constructor
  · intro h
    unfold base? at h
    split at h
    case isTrue hm =>
      cases h
      exact .binary (by simpa using hm)
    case isFalse =>
      split at h
      case isTrue hm =>
        cases h
        exact .octal (by simpa using hm)
      case isFalse =>
        split at h
        case isTrue hm =>
          cases h
          exact .hexadecimal (by simpa using hm)
        case isFalse => cases h
  · intro h
    have htable : ∀ e ∈ [('b', 2), ('B', 2), ('o', 8), ('O', 8), ('x', 16), ('X', 16)],
        base? e.1 = some e.2 := by decide
    exact htable _ h.mem_table

theorem Mark.base_le {m : Char} {base : Nat} (h : Mark m base) : base ≤ 16 := by
  cases h <;> decide

/-- The letter of a base mark is no octal digit and no underscore. -/
theorem Mark.not_follows {m : Char} {base : Nat} (h : Mark m base) (cs : List Char)
    (ds : List Nat) : ¬ Follows 8 (m :: cs) ds := by
  have htable : ∀ e ∈ [('b', 2), ('B', 2), ('o', 8), ('O', 8), ('x', 16), ('X', 16)],
      e.1 ≠ '_' ∧ ∀ d < 8, digit? e.1 ≠ some d := by decide
  have hletter := htable _ h.mem_table
  intro hf
  rcases follows_cons_iff.mp hf with ⟨hm, -⟩ | hds
  · exact hletter.1 hm
  · obtain ⟨d, -, -, hd, hlt, -⟩ := digits_cons_iff.mp hds
    exact hletter.2 d hlt ((digit?_eq_some_iff (by omega)).mpr hd)

theorem Digits.ne_nil {base : Nat} {cs : List Char} {ds : List Nat} (h : Digits base cs ds) :
    cs ≠ [] := by
  cases h <;> simp

theorem afterZero?_eq_some_iff {rest : List Char} {n : Nat} :
    afterZero? rest = some n ↔
      (∃ ds, Follows 8 rest ds ∧ value 8 ds = n) ∨
        ∃ m base cs ds, rest = m :: cs ∧ cs ≠ [] ∧ Mark m base ∧ Follows base cs ds ∧
          value base ds = n := by
  unfold afterZero?
  split
  case h_1 m c cs =>
    cases hm : base? m with
    | some base =>
      have hmark := base?_eq_some_iff.mp hm
      simp only [inBase?_true hmark.base_le]
      constructor
      · rintro ⟨ds, hds, hn⟩
        exact Or.inr ⟨m, base, c :: cs, ds, rfl, by simp, hmark, hds, hn⟩
      · rintro (⟨ds, hds, -⟩ | ⟨m', base', cs', ds, hrest, -, hmark', hds, hn⟩)
        · exact absurd hds (hmark.not_follows (c :: cs) ds)
        · cases hrest
          cases hm.symm.trans (base?_eq_some_iff.mpr hmark')
          exact ⟨ds, hds, hn⟩
    | none =>
      simp only [inBase?_true (show 8 ≤ 16 by decide)]
      constructor
      · exact Or.inl
      · rintro (h | ⟨m', base', cs', ds, hrest, -, hmark', -⟩)
        · exact h
        · cases hrest
          cases hm.symm.trans (base?_eq_some_iff.mpr hmark')
  case h_2 hshort =>
    rw [inBase?_true (by decide)]
    constructor
    · exact Or.inl
    · rintro (h | ⟨m, base, cs, ds, rfl, hne, -⟩)
      · exact h
      · cases cs with
        | nil => exact absurd rfl hne
        | cons c cs => exact absurd rfl (hshort m c cs)

theorem spells_zero_cons_iff {rest : List Char} {n : Nat} :
    Spells ('0' :: rest) n ↔
      (∃ ds, Follows 8 rest ds ∧ value 8 ds = n) ∨
        ∃ m base cs ds, rest = m :: cs ∧ cs ≠ [] ∧ Mark m base ∧ Follows base cs ds ∧
          value base ds = n := by
  constructor
  · intro h
    cases h with
    | zero => exact Or.inl ⟨[], Or.inl ⟨rfl, rfl⟩, rfl⟩
    | decimal _ hhead => exact absurd rfl hhead
    | octal hgap hds => exact Or.inl ⟨_, Or.inr ⟨_, hgap, _, rfl, hds⟩, rfl⟩
    | @marked m base gap cs ds hmark hgap hds =>
      refine Or.inr ⟨m, base, gap ++ cs, ds, rfl, ?_, hmark, Or.inr ⟨gap, hgap, cs, rfl, hds⟩, rfl⟩
      simp [hds.ne_nil]
  · rintro (⟨ds, ⟨rfl, rfl⟩ | ⟨gap, hgap, cs, rfl, hds⟩, rfl⟩ |
      ⟨m, base, cs, ds, rfl, hne, hmark, hf, rfl⟩)
    · exact .zero
    · exact .octal hgap hds
    · obtain ⟨gap, hgap, cs, rfl, hds⟩ := hf.resolve_left fun h => hne h.1
      exact .marked hmark hgap hds

theorem spells_cons_iff {c : Char} (hc : c ≠ '0') {rest : List Char} {n : Nat} :
    Spells (c :: rest) n ↔ ∃ ds, Digits 10 (c :: rest) ds ∧ value 10 ds = n := by
  constructor
  · intro h
    cases h with
    | decimal hds _ => exact ⟨_, hds, rfl⟩
    | _ => exact absurd rfl hc
  · rintro ⟨ds, hds, rfl⟩
    exact .decimal hds (by simpa using hc)

theorem Spells.ne_nil {cs : List Char} {n : Nat} (h : Spells cs n) : cs ≠ [] := by
  cases h with
  | decimal hds _ => exact hds.ne_nil
  | _ => simp

/-- **The numerals that are read are those of the grammar**, with the numbers they spell. -/
theorem read?_eq_some_iff {s : String} {n : Nat} : read? s = some n ↔ Spells s.toList n := by
  unfold read?
  generalize s.toList = text
  cases text with
  | nil =>
    constructor
    · intro h
      cases h
    · intro h
      exact absurd rfl h.ne_nil
  | cons c rest =>
    by_cases hc : c = '0'
    · subst hc
      simp only [if_true]
      rw [afterZero?_eq_some_iff, spells_zero_cons_iff]
    · simp only [if_neg hc]
      rw [inBase?_false (by decide) (List.cons_ne_nil c rest), spells_cons_iff hc]

end Numeral

/-! ## Counts -/

namespace Environment

open Numeral (Spells read?_eq_some_iff)

variable {env : Environment} {key s : String} {default least : Int} {n : Nat}

theorem setting?_eq_none_iff :
    env.setting? key = none ↔ env key = none ∨ env key = some "" := by
  unfold setting?
  cases env key <;> simp

theorem setting?_eq_some_iff : env.setting? key = some s ↔ env key = some s ∧ s ≠ "" := by
  simp [setting?]

theorem count_of_unset (h : env key = none ∨ env key = some "") :
    env.count key default least = .ok default := by
  rw [count, setting?_eq_none_iff.mpr h]

/-- What becomes of a number depends on its size alone. -/
theorem count_of_spells (hs : env key = some s) (hn : Spells s.toList n) :
    env.count key default least =
      if 2 ^ 64 ≤ n then .error (.invalid key)
      else if 2 ^ 31 ≤ n then .error (.tooLarge key)
      else if n < least then .error (.tooSmall key)
      else .ok n := by
  have hne : s ≠ "" := by
    rintro rfl
    exact hn.ne_nil rfl
  have hread := read?_eq_some_iff.mpr hn
  rw [count, setting?_eq_some_iff.mpr ⟨hs, hne⟩]
  by_cases hword : n < 2 ^ 64
  · have hfits : word64? s = some n := by
      rw [word64?, hread]
      exact Option.filter_eq_some_iff.mpr ⟨rfl, decide_eq_true hword⟩
    have hmax : maxCount < n ↔ 2 ^ 31 ≤ n := Iff.rfl
    simp only [hfits, hmax, if_neg (Nat.not_le.mpr hword)]
  · have hnone : word64? s = none := by
      rw [word64?, hread]
      exact Option.filter_some_neg (by simpa using hword)
    simp only [hnone, if_pos (Nat.not_lt.mp hword)]

theorem count_of_not_spells (hs : env key = some s) (hne : s ≠ "")
    (hno : ∀ n, ¬ Spells s.toList n) : env.count key default least = .error (.invalid key) := by
  have hnone : Numeral.read? s = none := by
    rw [Option.eq_none_iff_forall_ne_some]
    intro n hn
    exact hno n (read?_eq_some_iff.mp hn)
  rw [count, setting?_eq_some_iff.mpr ⟨hs, hne⟩]
  simp [word64?, hnone]

/-- A count that is accepted is the default, or lies between the least one and the largest. -/
theorem count_eq_ok {m : Int} (h : env.count key default least = .ok m) :
    m = default ∨ least ≤ m ∧ m < 2 ^ 31 := by
  unfold count at h
  split at h
  case h_1 =>
    cases h
    exact Or.inl rfl
  case h_2 =>
    split at h
    case h_1 => cases h
    case h_2 n _ =>
      split at h
      case isTrue => cases h
      case isFalse hlarge =>
        split at h
        case isTrue => cases h
        case isFalse hsmall =>
          cases h
          have hmax : n ≤ 2147483647 := Nat.not_lt.mp hlarge
          exact Or.inr ⟨by omega, by omega⟩

end Environment

/-! ## Workers -/

namespace Settings

theorem maxWorkers_set {s t : Settings} {o : Setting}
    (hs : 1 ≤ s.maxWorkers ∧ s.maxWorkers < 2 ^ 31) (h : s.set o = .ok t) :
    1 ≤ t.maxWorkers ∧ t.maxWorkers < 2 ^ 31 := by
  cases o with
  | maxWorkers n =>
    simp only [set] at h
    split at h
    case isTrue hn =>
      cases h
      have hmax : n ≤ 2147483647 := hn.2
      exact ⟨hn.1, Int.lt_of_le_of_lt hmax (by decide)⟩
    case isFalse => cases h
  | _ =>
    cases h
    exact hs

/-- Whatever is set, the number of workers stays in range. -/
theorem maxWorkers_foldlM {options : List Setting} {s t : Settings}
    (hs : 1 ≤ s.maxWorkers ∧ s.maxWorkers < 2 ^ 31) (h : options.foldlM set s = .ok t) :
    1 ≤ t.maxWorkers ∧ t.maxWorkers < 2 ^ 31 := by
  induction options generalizing s with
  | nil =>
    cases h
    exact hs
  | cons o rest ih =>
    rw [List.foldlM_cons] at h
    cases ho : s.set o with
    | error f =>
      rw [ho] at h
      cases h
    | ok u =>
      rw [ho] at h
      exact ih (maxWorkers_set hs ho) h

end Settings

theorem Defaults.maxWorkers_ofEnvironment {env : Environment} {d : Defaults}
    (h : Defaults.ofEnvironment env = .ok d) :
    env.count "SSADCE_MAX_WORKERS" standard.maxWorkers 1 = .ok d.maxWorkers := by
  unfold ofEnvironment at h
  cases hverify : env.switch "SSADCE_VERIFY" standard.verify with
  | error f =>
    rw [hverify] at h
    cases h
  | ok verify =>
    cases htrace : env.switch "SSADCE_TRACE" standard.trace with
    | error f =>
      rw [hverify, htrace] at h
      cases h
    | ok trace =>
      cases hcount : env.count "SSADCE_MAX_WORKERS" standard.maxWorkers 1 with
      | error f =>
        rw [hverify, htrace, hcount] at h
        cases h
      | ok workers =>
        rw [hverify, htrace, hcount] at h
        cases h
        rfl

namespace Environment

open Numeral (Spells)

/-- **Counts go by the number and not by its spelling.** A variable that spells the number `n` sets
the count to it if it lies between the least count and `2 ^ 31 - 1`, and is refused otherwise: as too
small, as too large, or from `2 ^ 64` on as invalid. A text that is no numeral is invalid, and an
empty or unset variable leaves the default. So the number of workers fits 31 bits, and nothing is
lost where 32 bits are used for it. -/
theorem count_exact (env : Environment) (key : String) (default least : Int) :
    (∀ s n, env key = some s → Spells s.toList n →
      (env.count key default least = .ok n ↔ least ≤ n ∧ n ≤ 2 ^ 31 - 1) ∧
      (env.count key default least = .error (.tooSmall key) ↔ n ≤ 2 ^ 31 - 1 ∧ n < least) ∧
      (env.count key default least = .error (.tooLarge key) ↔ 2 ^ 31 ≤ n ∧ n < 2 ^ 64) ∧
      (env.count key default least = .error (.invalid key) ↔ 2 ^ 64 ≤ n)) ∧
    (∀ s, env key = some s → s ≠ "" → (∀ n, ¬ Spells s.toList n) →
      env.count key default least = .error (.invalid key)) ∧
    (env key = none ∨ env key = some "" → env.count key default least = .ok default) ∧
    ((EnvFault.tooSmall key).message = "ssadce: value too small for " ++ key ∧
      (EnvFault.tooLarge key).message = "ssadce: value too large for " ++ key ∧
      (EnvFault.invalid key).message = "ssadce: invalid value for " ++ key) ∧
    (∀ d, Defaults.ofEnvironment env = .ok d →
      env.count "SSADCE_MAX_WORKERS" Defaults.standard.maxWorkers 1 = .ok d.maxWorkers) ∧
    ∀ workers, env.count "SSADCE_MAX_WORKERS" Defaults.standard.maxWorkers 1 = .ok workers →
      ∀ verify trace options settings,
        Settings.resolve ⟨verify, trace, workers⟩ options = .ok settings →
        1 ≤ settings.maxWorkers ∧ settings.maxWorkers ≤ 2 ^ 31 - 1 ∧
          (Int32.ofInt settings.maxWorkers).toInt = settings.maxWorkers := by
  refine ⟨fun s n hs hn => ?_, fun s hs hne hno => count_of_not_spells hs hne hno, count_of_unset,
    ⟨rfl, rfl, rfl⟩, fun d hd => Defaults.maxWorkers_ofEnvironment hd, ?_⟩
  · rw [count_of_spells hs hn]
    refine ⟨?_, ?_, ?_, ?_⟩ <;> split_ifs <;> simp <;> omega
  · intro workers hworkers verify trace options settings hset
    have hstart : 1 ≤ workers ∧ workers < 2 ^ 31 := by
      rcases count_eq_ok hworkers with rfl | hrange
      · decide
      · exact hrange
    obtain ⟨hlow, hhigh⟩ := Settings.maxWorkers_foldlM hstart hset
    exact ⟨hlow, by omega, Int32.toInt_ofInt_of_le (by omega) hhigh⟩

/-- A numeral with a base mark, letters of both cases and underscores, one that is too long for 64
bits, and a base mark without digits. -/
theorem spellings_counted :
    let env : Environment := fun key =>
      if key = "SMALL" then some "0X_1f_F" else if key = "HUGE" then some "18446744073709551616"
      else some "0x"
    (env "SMALL" = some "0X_1f_F" ∧ Spells "0X_1f_F".toList 511 ∧
      env.count "SMALL" 4 1 = .ok (511 : Nat) ∧ env.count "SMALL" 4 512 = .error (.tooSmall "SMALL")) ∧
    (Spells "18446744073709551616".toList (2 ^ 64) ∧
      env.count "HUGE" 4 1 = .error (.invalid "HUGE")) ∧
    (∀ n, ¬ Spells "0x".toList n) ∧ env.count "BARE" 4 1 = .error (.invalid "BARE") := by
  intro env
  have hsmall : Spells "0X_1f_F".toList 511 := Numeral.read?_eq_some_iff.mp (by cbv)
  have hhuge : Spells "18446744073709551616".toList (2 ^ 64) :=
    Numeral.read?_eq_some_iff.mp (by cbv)
  have hbare : ∀ n, ¬ Spells "0x".toList n := by
    intro n hn
    have hread := Numeral.read?_eq_some_iff.mpr hn
    have hnone : Numeral.read? "0x" = none := by cbv
    rw [hnone] at hread
    cases hread
  obtain ⟨hok, -⟩ := (count_exact env "SMALL" 4 1).1 _ _ rfl hsmall
  obtain ⟨-, hlow, -⟩ := (count_exact env "SMALL" 4 512).1 _ _ rfl hsmall
  obtain ⟨-, -, -, hlong⟩ := (count_exact env "HUGE" 4 1).1 _ _ rfl hhuge
  exact ⟨⟨rfl, hsmall, hok.mpr (by decide), hlow.mpr (by decide)⟩, ⟨hhuge, hlong.mpr (le_refl _)⟩,
    hbare, (count_exact env "BARE" 4 1).2.1 _ rfl (by decide) hbare⟩

end Environment

end Deadwood
