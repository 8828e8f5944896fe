import Deadwood.Proofs.Necessary

/-!
# Closed sweeps

Code from which instructions are removed has other definitions, and since values may be defined
several times, a different one may now be the last for a value. A sweep is **closed** if it keeps,
with an instruction, the definition that counts for every value the instruction refers to. Then all
that is left refers to the same definitions as before: those that were removed behind them define
other values (`Closed.lastDefines_filter_iff`).

**Theorem (`Closed.necessary_filter_iff`).** A closed sweep that keeps all that is necessary leaves
exactly that necessary.

A sweep by what is necessary is itself closed (`closed_of_necessary`), also for an oracle that knows
less: the more an oracle knows, the less is necessary (`Necessary.mono`).
-/

namespace Deadwood

variable {oracle narrow wide : Oracle} {code : List Instr} {keep : Instr → Bool}

/-! ## More knowing oracles -/

theorem Op.isRoot_mono (h : ∀ c, narrow.vouches c = true → wide.vouches c = true) {op : Op}
    (hop : op.isRoot wide = true) : op.isRoot narrow = true := by
  cases op with
  | call dst callee args =>
    have hwide : wide.vouches callee = false := by simpa [isRoot] using hop
    cases hn : narrow.vouches callee with
    | false => simp [isRoot, hn]
    | true =>
      rw [h callee hn] at hwide
      cases hwide
  | copy | phi | unknown => cases hop
  | _ => rfl

theorem Op.fault?_ofRule_eq (rule rule' : Callee → Bool) {op : Op} :
    op.fault? (.ofRule rule) = op.fault? (.ofRule rule') := by
  cases op <;> rfl

/-- The more an oracle knows, the less is necessary. -/
theorem Necessary.mono (h : ∀ c, narrow.vouches c = true → wide.vouches c = true) {i : Instr}
    (hi : Necessary wide code i) : Necessary narrow code i := by
  induction hi with
  | root hmem hroot => exact .root hmem (Op.isRoot_mono h hroot)
  | operand _ hv hd ih => exact .operand ih hv hd

theorem Resolved.mono (h : ∀ c, narrow.vouches c = true → wide.vouches c = true)
    (hres : Resolved narrow code) : Resolved wide code :=
  fun i hi => hres i (hi.mono h)

/-! ## Closed sweeps -/

/-- What a sweep keeps is closed under references: with an instruction it keeps the definitions that
count for the values it refers to. -/
def Closed (code : List Instr) (keep : Instr → Bool) : Prop :=
  ∀ i ∈ code, keep i = true → ∀ v ∈ i.op.refs, ∃ j, LastDefines code v j ∧ keep j = true

theorem closed_of_necessary (hkeep : ∀ i, keep i = true ↔ Necessary oracle code i)
    (hres : Resolved oracle code) : Closed code keep := by
  intro i _ hi v hv
  have hnec : Necessary oracle code i := (hkeep i).mp hi
  obtain ⟨j, hj⟩ := (lastDefines_or_undefined code v).resolve_right (hres i hnec v hv)
  exact ⟨j, hj, (hkeep j).mpr (.operand hnec hv hj)⟩

theorem LastDefines.filter {v : Value} {i : Instr} (h : LastDefines code v i)
    (hi : keep i = true) : LastDefines (code.filter keep) v i := by
  obtain ⟨before, after, rfl, hv, hafter⟩ := h
  refine ⟨before.filter keep, after.filter keep, ?_, hv, fun j hj => ?_⟩
  · rw [List.filter_append, List.filter_cons_of_pos hi]
  · exact hafter j (List.mem_filter.mp hj).1

namespace Closed

variable (h : Closed code keep)
include h

/-- A closed sweep leaves the definitions that count for the values still referred to. -/
theorem lastDefines_filter_iff {i j : Instr} {v : Value} (hi : i ∈ code.filter keep)
    (hv : v ∈ i.op.refs) : LastDefines (code.filter keep) v j ↔ LastDefines code v j := by
  obtain ⟨hmem, hk⟩ := List.mem_filter.mp hi
  obtain ⟨d, hd, hdk⟩ := h i hmem hk v hv
  constructor
  · intro hj
    rwa [hj.unique (hd.filter hdk)]
  · intro hj
    rw [hj.unique hd]
    exact hd.filter hdk

theorem defined_filter {i : Instr} (hi : i ∈ code.filter keep) {v : Value} (hv : v ∈ i.op.refs) :
    ¬ Undefined (code.filter keep) v := by
  obtain ⟨hmem, hk⟩ := List.mem_filter.mp hi
  obtain ⟨d, hd, hdk⟩ := h i hmem hk v hv
  exact (hd.filter hdk).not_undefined

theorem resolved_filter : Resolved oracle (code.filter keep) :=
  fun _ hi _ hv => h.defined_filter hi.mem hv

theorem necessary_of_filter {i : Instr} (hi : Necessary oracle (code.filter keep) i) :
    Necessary oracle code i := by
  induction hi with
  | root hmem hroot => exact .root (List.mem_filter.mp hmem).1 hroot
  | operand hi hv hd ih => exact .operand ih hv ((h.lastDefines_filter_iff hi.mem hv).mp hd)

/-- **A closed sweep that keeps all that is necessary leaves it necessary.** -/
theorem necessary_filter_iff (hall : ∀ i, Necessary oracle code i → keep i = true) {i : Instr} :
    Necessary oracle (code.filter keep) i ↔ Necessary oracle code i := by
  have hmem : ∀ {j}, Necessary oracle code j → j ∈ code.filter keep :=
    fun hj => List.mem_filter.mpr ⟨hj.mem, hall _ hj⟩
  refine ⟨h.necessary_of_filter, fun hi => ?_⟩
  induction hi with
  | root hi hroot => exact .root (hmem (.root hi hroot)) hroot
  | operand hi hv hd ih => exact .operand ih hv ((h.lastDefines_filter_iff (hmem hi) hv).mpr hd)

end Closed

end Deadwood
