import Mathlib
import Deadwood.Elimination
import Deadwood.Proofs.Necessary

/-!
# What an elimination leaves, and how it ends

**Theorem (`eliminate_keeps_necessary`).** An elimination that succeeds leaves in every block of the
layout exactly the necessary ones of its instructions, in their order and as often as they stood
there, and changes nothing else.

**Theorem (`eliminate_outcome`).** Whether it succeeds, and with what fault it fails otherwise, is
settled by the code and the oracle. The first instruction that is unknown, or calls someone on whom
the oracle fails, decides if there is one. Otherwise it fails exactly if a necessary instruction
refers to a value that nothing defines. Whenever it fails, the function is as before.

Both follow from what the marking computes (`Marking.run_ok`, `Marking.run_of_no_fault`) once the
sweep over the layout is known block by block (`block_sweep`).
-/

namespace Deadwood

/-! ## The sweep, block by block -/

@[simp] theorem Block.body_sweep (keep : Instr → Bool) (b : Block) :
    (b.sweep keep).body = b.body.filter keep := rfl

/-- A second sweep finds nothing to do. -/
theorem Block.sweep_sweep (keep : Instr → Bool) (b : Block) :
    (b.sweep keep).sweep keep = b.sweep keep := by
  simp [Block.sweep, List.filter_filter]

namespace Func

theorem block_modifyBlock_self (fn : Func) (r : BlockRef) (f : Block → Block)
    (hf : f default = default) : (fn.modifyBlock r f).block r = f (fn.block r) := by
  unfold block modifyBlock
  rw [List.getD_eq_getElem?_getD, List.getD_eq_getElem?_getD, List.getElem?_modify]
  cases fn.pool[r]? with
  | none => simpa using hf.symm
  | some b => simp

theorem block_modifyBlock_of_ne (fn : Func) {r s : BlockRef} (h : s ≠ r) (f : Block → Block) :
    (fn.modifyBlock r f).block s = fn.block s := by
  unfold block modifyBlock
  rw [List.getD_eq_getElem?_getD, List.getD_eq_getElem?_getD, List.getElem?_modify]
  simp only [if_neg (Ne.symm h)]
  cases fn.pool[s]? <;> rfl

/-- What sweeping the blocks of a list leaves. -/
theorem foldl_sweep (keep : Instr → Bool) (layout : List BlockRef) (fn : Func) :
    let after := layout.foldl (fun f r => f.modifyBlock r (Block.sweep keep)) fn
    after.name = fn.name ∧ after.layout = fn.layout ∧ after.pool.length = fn.pool.length ∧
      ∀ r, after.block r = if r ∈ layout then (fn.block r).sweep keep else fn.block r := by
  induction layout generalizing fn with
  | nil => simp
  | cons s rest ih =>
    obtain ⟨hname, hlayout, hpool, hblock⟩ := ih (fn.modifyBlock s (Block.sweep keep))
    refine ⟨hname, hlayout, hpool.trans (List.length_modify ..), fun r => ?_⟩
    rw [List.foldl_cons, hblock]
    by_cases hr : r = s
    · subst hr
      rw [block_modifyBlock_self fn r (Block.sweep keep) rfl, Block.sweep_sweep]
      simp
    · rw [block_modifyBlock_of_ne fn hr]
      simp [hr]

@[simp] theorem name_sweep (fn : Func) (keep : Instr → Bool) : (fn.sweep keep).name = fn.name :=
  (foldl_sweep keep fn.layout fn).1

@[simp] theorem layout_sweep (fn : Func) (keep : Instr → Bool) :
    (fn.sweep keep).layout = fn.layout :=
  (foldl_sweep keep fn.layout fn).2.1

@[simp] theorem length_pool_sweep (fn : Func) (keep : Instr → Bool) :
    (fn.sweep keep).pool.length = fn.pool.length :=
  (foldl_sweep keep fn.layout fn).2.2.1

/-- **The sweep, block by block.** -/
theorem block_sweep (fn : Func) (keep : Instr → Bool) (r : BlockRef) :
    (fn.sweep keep).block r = if r ∈ fn.layout then (fn.block r).sweep keep else fn.block r :=
  (foldl_sweep keep fn.layout fn).2.2.2 r

theorem code_sweep (fn : Func) (keep : Instr → Bool) :
    (fn.sweep keep).code = fn.code.filter keep := by
  unfold code body
  rw [layout_sweep, List.flatMap_map, List.flatMap_map, List.filter_flatMap, List.flatMap_def,
    List.flatMap_def]
  refine congrArg List.flatten (List.map_congr_left fun r hr => ?_)
  rw [block_sweep, if_pos hr, Block.body_sweep]

/-! ## How an elimination ends -/

/-- Marking comes first and touches nothing; the sweep comes after it and does not fail. -/
theorem eliminate_eq (oracle : Oracle) (fn : Func) :
    fn.eliminate oracle =
      match Marking.run oracle fn with
      | .ok marks => (.ok (), fn.sweep marks.keeps)
      | .error f => (.error f, fn) := by
  have hread : fn.eliminate oracle =
      Edit.on (ofExcept (Marking.run oracle fn) >>= fun marks =>
        modify fun fn => fn.sweep marks.keeps) fn := rfl
  rw [hread]
  cases Marking.run oracle fn <;> rfl

/-- A failed elimination leaves the function as it was. -/
theorem eliminate_of_error {oracle : Oracle} {fn : Func} {f : Fault}
    (h : (fn.eliminate oracle).1 = .error f) : (fn.eliminate oracle).2 = fn := by
  rw [eliminate_eq] at h ⊢
  cases hrun : Marking.run oracle fn with
  | ok marks =>
    rw [hrun] at h
    cases h
  | error g => rfl

/-- The first instruction with a fault decides. -/
theorem eliminate_of_fault {oracle : Oracle} {fn : Func} {f : Fault}
    (h : fn.code.findSome? (·.op.fault? oracle) = some f) :
    (fn.eliminate oracle).1 = .error f := by
  rw [eliminate_eq, Marking.run_fault h]

/-- Where no instruction has a fault, an elimination that fails meets an unresolved reference. -/
theorem eliminate_of_no_fault {oracle : Oracle} {fn : Func}
    (h : ∀ i ∈ fn.code, i.op.fault? oracle = none) :
    (fn.eliminate oracle).1 = .ok () ∧ Resolved oracle fn.code ∨
      ∃ v, (fn.eliminate oracle).1 = .error (.violation (.undefined fn.name v)) ∧
        Undefined fn.code v ∧ ∃ i, Necessary oracle fn.code i ∧ v ∈ i.op.refs := by
  rcases Marking.run_of_no_fault (List.findSome?_eq_none_iff.mpr h) with ⟨marks, hm⟩ | ⟨v, hv, huse⟩
  · refine Or.inl ⟨?_, (Marking.run_ok hm).2⟩
    rw [eliminate_eq, hm]
  · refine Or.inr ⟨v, ?_, huse⟩
    rw [eliminate_eq, hv]

/-- Where no instruction has a fault and every reference of a necessary instruction is resolved, an
elimination succeeds. -/
theorem eliminate_of_resolved {oracle : Oracle} {fn : Func}
    (h : ∀ i ∈ fn.code, i.op.fault? oracle = none) (hres : Resolved oracle fn.code) :
    (fn.eliminate oracle).1 = .ok () := by
  rcases eliminate_of_no_fault h with ⟨hok, -⟩ | ⟨v, -, hu, i, hi, hv⟩
  · exact hok
  · exact absurd hu (hres i hi v hv)

/-- An elimination succeeds exactly if no instruction has a fault and every reference of a necessary
instruction is resolved. -/
theorem eliminate_eq_ok_iff {oracle : Oracle} {fn : Func} :
    (fn.eliminate oracle).1 = .ok () ↔
      (∀ i ∈ fn.code, i.op.fault? oracle = none) ∧ Resolved oracle fn.code := by
  refine ⟨fun h => ?_, fun h => eliminate_of_resolved h.1 h.2⟩
  have hnone : ∀ i ∈ fn.code, i.op.fault? oracle = none := by
    rw [← List.findSome?_eq_none_iff, Option.eq_none_iff_forall_ne_some]
    intro f hf
    rw [eliminate_of_fault hf] at h
    cases h
  rcases eliminate_of_no_fault hnone with ⟨-, hres⟩ | ⟨v, hv, -⟩
  · exact ⟨hnone, hres⟩
  · rw [hv] at h
    cases h

/-- An elimination that succeeds sweeps by what is necessary. -/
theorem eliminate_of_ok {oracle : Oracle} {fn : Func} (h : (fn.eliminate oracle).1 = .ok ()) :
    ∃ keep : Instr → Bool, (∀ i, keep i = true ↔ Necessary oracle fn.code i) ∧
      (fn.eliminate oracle).2 = fn.sweep keep := by
  rw [eliminate_eq] at h ⊢
  cases hrun : Marking.run oracle fn with
  | error f =>
    rw [hrun] at h
    cases h
  | ok marks => exact ⟨marks.keeps, (Marking.run_ok hrun).1, rfl⟩

end Func

theorem Op.isSome_of_mem_refs {op : Op} {v : Value} (h : v ∈ op.refs) : v.IsSome := by
  obtain ⟨x, -, hx⟩ := List.mem_filterMap.mp h
  exact (Operand.value?_eq_some_iff.mp hx).2

/-! ## The two results -/

namespace Func

open scoped Classical in
/-- **An elimination keeps exactly the necessary instructions.** It leaves the name, the layout and
the blocks outside the layout as they are, and of a block in the layout only the body changes. -/
theorem eliminate_keeps_necessary {oracle : Oracle} {fn after : Func}
    (h : fn.eliminate oracle = (.ok (), after)) :
    after.name = fn.name ∧ after.layout = fn.layout ∧ after.pool.length = fn.pool.length ∧
      (∀ r ∈ fn.layout, after.block r =
        { fn.block r with
          body := (fn.block r).body.filter fun i => decide (Necessary oracle fn.code i) }) ∧
      ∀ r, r ∉ fn.layout → after.block r = fn.block r := by
  obtain ⟨keep, hkeep, hafter⟩ := eliminate_of_ok (congrArg Prod.fst h)
  rw [h] at hafter
  change after = fn.sweep keep at hafter
  subst hafter
  have hfun : (fun i => decide (Necessary oracle fn.code i)) = keep := by
    funext i
    rw [Bool.eq_iff_iff, decide_eq_true_iff, hkeep]
  refine ⟨name_sweep fn keep, layout_sweep fn keep, length_pool_sweep fn keep, ?_, ?_⟩
  · intro r hr
    rw [block_sweep, if_pos hr, hfun]
    rfl
  · intro r hr
    rw [block_sweep, if_neg hr]

/-- A function in which values are defined twice, dead instructions refer to each other in a cycle,
a const call is used and another refers to itself, and a block stands in the layout twice. -/
def tangle : Func where
  name := "tangle"
  pool := [
    ⟨7, [⟨0, .param ⟨1⟩ 0⟩, ⟨1, .copy ⟨2⟩ (.lit 5)⟩, ⟨2, .call ⟨3⟩ (.named "len") [.ref ⟨1⟩]⟩,
      ⟨3, .jump 1⟩], []⟩,
    ⟨7, [⟨4, .phi ⟨4⟩ [(0, .ref ⟨1⟩), (1, .ref ⟨5⟩)]⟩, ⟨5, .copy ⟨5⟩ (.ref ⟨4⟩)⟩,
      ⟨6, .call ⟨6⟩ (.named "len") [.ref ⟨6⟩]⟩, ⟨7, .copy ⟨2⟩ (.ref ⟨3⟩)⟩,
      ⟨8, .ret [.ref ⟨2⟩]⟩], [0]⟩,
    ⟨9, [⟨9, .copy ⟨2⟩ (.lit 1)⟩], []⟩]
  layout := [0, 1, 1]

/-- The tangle without its dead instructions. -/
def tangleSwept : Func where
  name := "tangle"
  pool := [
    ⟨7, [⟨0, .param ⟨1⟩ 0⟩, ⟨2, .call ⟨3⟩ (.named "len") [.ref ⟨1⟩]⟩, ⟨3, .jump 1⟩], []⟩,
    ⟨7, [⟨7, .copy ⟨2⟩ (.ref ⟨3⟩)⟩, ⟨8, .ret [.ref ⟨2⟩]⟩], [0]⟩,
    ⟨9, [⟨9, .copy ⟨2⟩ (.lit 1)⟩], []⟩]
  layout := [0, 1, 1]

theorem eliminate_tangle :
    tangle.eliminate (ConstSet.ofList ["len"]).oracle = (.ok (), tangleSwept) := by
  cbv

open scoped Classical in
theorem tangle_keeps_necessary :
    tangle.eliminate (ConstSet.ofList ["len"]).oracle = (.ok (), tangleSwept) ∧
      ∀ r ∈ tangle.layout, tangleSwept.block r =
        { tangle.block r with
          body := (tangle.block r).body.filter fun i =>
            decide (Necessary (ConstSet.ofList ["len"]).oracle tangle.code i) } :=
  ⟨eliminate_tangle, (eliminate_keeps_necessary eliminate_tangle).2.2.2.1⟩

/-- **How an elimination ends.** Going through the code in order, the first instruction that is
unknown, or calls someone on whom the oracle fails, decides. If there is none, the elimination fails
exactly if a necessary instruction refers to a value that nothing defines, names such a value, and
otherwise succeeds. Whenever it fails, the function is as before. -/
theorem eliminate_outcome (oracle : Oracle) (fn : Func) :
    (∀ before i after, fn.code = before ++ i :: after →
      (∀ j ∈ before, j.op.fault? oracle = none) →
        (∀ text, i.op = .unknown text → (fn.eliminate oracle).1 = .error (.unknownInstr text) ∧
          (Fault.unknownInstr text).message = "dce: invalid instruction: " ++ text) ∧
        ∀ dst callee args text, i.op = .call dst callee args →
          oracle.isConst callee = .error text →
            (fn.eliminate oracle).1 = .error (.oracle text) ∧ (Fault.oracle text).message = text) ∧
    ((∀ i ∈ fn.code, i.op.fault? oracle = none) →
      ((∃ w, (fn.eliminate oracle).1 = .error (.violation w)) ↔
        ∃ i v, Necessary oracle fn.code i ∧ v ∈ i.op.refs ∧ Undefined fn.code v) ∧
      (∀ w, (fn.eliminate oracle).1 = .error (.violation w) →
        w.func = fn.name ∧ w.reason = "value has no definition" ∧ w.value.IsSome ∧
          Undefined fn.code w.value ∧ ∃ i, Necessary oracle fn.code i ∧ w.value ∈ i.op.refs) ∧
      ((¬ ∃ w, (fn.eliminate oracle).1 = .error (.violation w)) →
        (fn.eliminate oracle).1 = .ok ())) ∧
    ∀ f, (fn.eliminate oracle).1 = .error f → (fn.eliminate oracle).2 = fn := by
  refine ⟨fun before i after hcode hbefore => ?_, fun hnone => ?_,
    fun f hf => eliminate_of_error hf⟩
  · have hfirst : ∀ f, i.op.fault? oracle = some f → (fn.eliminate oracle).1 = .error f := by
      intro f hf
      refine eliminate_of_fault (List.findSome?_eq_some_iff.mpr ?_)
      exact ⟨before, i, after, hcode, hf, hbefore⟩
    refine ⟨fun text htext => ⟨hfirst (.unknownInstr text) ?_, rfl⟩, ?_⟩
    · rw [htext, Op.fault?]
    · intro dst callee args text hcall hfail
      refine ⟨hfirst (.oracle text) ?_, rfl⟩
      rw [hcall, Op.fault?, hfail]
  · rcases eliminate_of_no_fault hnone with ⟨hok, hres⟩ | ⟨v, hv, hu, i, hi, hvi⟩
    · have hno : ∀ w, (fn.eliminate oracle).1 ≠ .error (.violation w) := by
        intro w hw
        rw [hok] at hw
        cases hw
      refine ⟨⟨?_, ?_⟩, fun w hw => absurd hw (hno w), fun _ => hok⟩
      · rintro ⟨w, hw⟩
        exact absurd hw (hno w)
      · rintro ⟨i, v, hi, hv, hu⟩
        exact absurd hu (hres i hi v hv)
    · refine ⟨⟨fun _ => ⟨i, v, hi, hvi, hu⟩, fun _ => ⟨_, hv⟩⟩, ?_, fun hno => absurd ⟨_, hv⟩ hno⟩
      intro w hw
      obtain rfl : Violation.undefined fn.name v = w := by
        rw [hv] at hw
        injection hw with hw
        injection hw
      exact ⟨rfl, rfl, Op.isSome_of_mem_refs hvi, hu, i, hi, hvi⟩

end Func

end Deadwood
