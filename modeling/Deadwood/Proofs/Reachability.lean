import Deadwood.Proofs.Diagnosis

/-!
# Edges, and what control can reach

**Theorem (`flow_exact`).** The control flow graph has an edge from `u` to `v` exactly if a block of
the body labelled `u` ends in an instruction that may send control to a block labelled `v`, also
where `u = v`. The blocks reported as unreachable are, in their order, those whose labels no path
of edges reaches from the entry's label. Where labels tell the blocks of the body apart and control
stays among them, these are the blocks that no sequence of steps from block to block reaches.

The search keeps the invariant `Covered`: an edge out of a label already seen leads to one that is
seen or waits. So when nothing waits, the labels seen are closed under edges
(`Covered.closed_reach`). The other half is that every label seen or waiting is reached by a path
(`reachable_of_mem_reach`). The search does not see the edges from a label to itself, and need not:
no path needs them (`reflTransGen_links_iff`).
-/

namespace Deadwood

open Relation (ReflTransGen)

/-! ## The search -/

namespace Flow

variable {edges : List Edge} {todo seen : List Int} {u v : Int}

theorem mem_next : v ∈ next edges u ↔ (u, v) ∈ edges := by
  simp [next]

/-- Edges out of the labels seen lead to labels that are seen too, or wait. -/
def Covered (edges : List Edge) (todo seen : List Int) : Prop :=
  ∀ u v, (u, v) ∈ edges → u ∈ seen → v ∈ seen ∨ v ∈ todo

theorem Covered.skip (h : Covered edges (u :: todo) seen) (hu : u ∈ seen) :
    Covered edges todo seen := by
  intro a b hab ha
  rcases h a b hab ha with hb | hb
  · exact Or.inl hb
  · rcases List.mem_cons.mp hb with rfl | hb
    · exact Or.inl hu
    · exact Or.inr hb

theorem Covered.visit (h : Covered edges (u :: todo) seen) :
    Covered edges (next edges u ++ todo) (u :: seen) := by
  intro a b hab ha
  rcases List.mem_cons.mp ha with rfl | ha
  · exact Or.inr (List.mem_append_left _ (mem_next.mpr hab))
  · rcases h a b hab ha with hb | hb
    · exact Or.inl (List.mem_cons_of_mem u hb)
    · rcases List.mem_cons.mp hb with rfl | hb
      · exact Or.inl List.mem_cons_self
      · exact Or.inr (List.mem_append_right _ hb)

/-- The search ends with what it has seen, and with all that waits. -/
theorem mem_reach_of_mem (h : v ∈ seen ∨ v ∈ todo) : v ∈ reach edges todo seen := by
  fun_induction reach edges todo seen with
  | case1 seen => simpa using h
  | case2 seen u rest hu ih =>
    apply ih
    rcases h with h | h
    · exact Or.inl h
    · rcases List.mem_cons.mp h with rfl | h
      · exact Or.inl hu
      · exact Or.inr h
  | case3 seen u rest hu ih =>
    apply ih
    rcases h with h | h
    · exact Or.inl (List.mem_cons_of_mem u h)
    · rcases List.mem_cons.mp h with rfl | h
      · exact Or.inl List.mem_cons_self
      · exact Or.inr (List.mem_append_right _ h)

/-- What the search ends with is closed under edges. -/
theorem Covered.closed_reach (h : Covered edges todo seen) (huv : (u, v) ∈ edges)
    (hu : u ∈ reach edges todo seen) : v ∈ reach edges todo seen := by
  fun_induction reach edges todo seen with
  | case1 seen => simpa using h u v huv hu
  | case2 seen w rest hw ih => exact ih (h.skip hw) hu
  | case3 seen w rest hw ih => exact ih h.visit hu

/-- What the search ends with was seen before, or is reached from a label that waited. -/
theorem reachable_of_mem_reach (h : v ∈ reach edges todo seen) :
    v ∈ seen ∨ ∃ u ∈ todo, ReflTransGen (fun a b => (a, b) ∈ edges) u v := by
  fun_induction reach edges todo seen with
  | case1 seen => exact Or.inl h
  | case2 seen u rest hu ih =>
    rcases ih h with hv | ⟨w, hw, hpath⟩
    · exact Or.inl hv
    · exact Or.inr ⟨w, List.mem_cons_of_mem u hw, hpath⟩
  | case3 seen u rest hu ih =>
    rcases ih h with hv | ⟨w, hw, hpath⟩
    · rcases List.mem_cons.mp hv with rfl | hv
      · exact Or.inr ⟨v, List.mem_cons_self, .refl⟩
      · exact Or.inl hv
    · rcases List.mem_append.mp hw with hw | hw
      · exact Or.inr ⟨u, List.mem_cons_self, .head (mem_next.mp hw) hpath⟩
      · exact Or.inr ⟨w, List.mem_cons_of_mem u hw, hpath⟩

/-- **The search finds exactly what paths reach.** -/
theorem mem_reach_iff :
    v ∈ reach edges [u] [] ↔ ReflTransGen (fun a b => (a, b) ∈ edges) u v := by
  constructor
  · intro h
    rcases reachable_of_mem_reach h with hv | ⟨w, hw, hpath⟩
    · cases hv
    · rwa [List.mem_singleton.mp hw] at hpath
  · intro h
    have hcovered : Covered edges [u] [] := fun a b _ ha => by cases ha
    induction h with
    | refl => exact mem_reach_of_mem (Or.inr List.mem_cons_self)
    | tail _ hedge ih => exact hcovered.closed_reach hedge ih

end Flow

/-! ## Edges between labels -/

namespace Func

variable {fn : Func} {entry : BlockRef} {rest : List BlockRef}

/-- A path needs no edge from a label to itself. -/
theorem reflTransGen_links_iff {u v : Int} :
    ReflTransGen (fun a b => (a, b) ∈ fn.graph.links) u v ↔
      ReflTransGen (fun a b => fn.hasEdge a b = true) u v := by
  constructor
  · apply ReflTransGen.mono
    intro a b hab
    simpa [hasEdge_eq] using (List.mem_filter.mp hab).1
  · intro h
    induction h with
    | refl => exact .refl
    | @tail a b _ hab ih =>
      by_cases hself : a = b
      · rwa [← hself]
      · have hedge : (a, b) ∈ fn.edges := by simpa [hasEdge_eq] using hab
        exact ih.tail (List.mem_filter.mpr ⟨hedge, by simpa using hself⟩)

theorem mem_reached_iff (h : fn.layout = entry :: rest) {v : Int} :
    v ∈ fn.reached ↔ ReflTransGen (fun a b => fn.hasEdge a b = true) (fn.label entry) v := by
  have hentry : fn.entry? = some (fn.block entry) := by simp [ entry?, body, h]
  unfold reached
  rw [hentry, ← reflTransGen_links_iff]
  exact Flow.mem_reach_iff

/-! ## Steps from block to block -/

/-- Labels tell the blocks of the body apart, and control does not leave the body. -/
structure SelfContained (fn : Func) : Prop where
  apart : ∀ p ∈ fn.layout, ∀ q ∈ fn.layout, fn.label p = fn.label q → p = q
  closed : ∀ p ∈ fn.layout, ∀ q ∈ (fn.block p).successors, q ∈ fn.layout

namespace SelfContained

variable (h : fn.SelfContained) (hentry : entry ∈ fn.layout)
include h hentry

/-- A sequence of steps stays in the body, and the labels it passes are linked. -/
theorem path_of_steps {r : BlockRef}
    (hsteps : ReflTransGen (fun p q => q ∈ (fn.block p).successors) entry r) :
    r ∈ fn.layout ∧
      ReflTransGen (fun a b => fn.hasEdge a b = true) (fn.label entry) (fn.label r) := by
  induction hsteps with
  | refl => exact ⟨hentry, .refl⟩
  | @tail p q _ hq ih =>
    have hedge : fn.hasEdge (fn.label p) (fn.label q) = true :=
      hasEdge_iff.mpr ⟨p, ih.1, rfl, q, hq, rfl⟩
    exact ⟨h.closed p ih.1 q hq, ih.2.tail hedge⟩

/-- A path of edges is followed by steps between the only blocks that have its labels. -/
theorem steps_of_path {v : Int}
    (hpath : ReflTransGen (fun a b => fn.hasEdge a b = true) (fn.label entry) v) :
    ∃ r ∈ fn.layout, fn.label r = v ∧
      ReflTransGen (fun p q => q ∈ (fn.block p).successors) entry r := by
  induction hpath with
  | refl => exact ⟨entry, hentry, rfl, .refl⟩
  | tail _ hedge ih =>
    obtain ⟨r, hr, hlabel, hsteps⟩ := ih
    obtain ⟨q, hq, hqr, s, hs, hsv⟩ := hasEdge_iff.mp hedge
    rw [h.apart q hq r hr (hqr.trans hlabel.symm)] at hs
    exact ⟨s, h.closed r hr s hs, hsv, hsteps.tail hs⟩

theorem steps_iff_path {r : BlockRef} (hr : r ∈ fn.layout) :
    ReflTransGen (fun p q => q ∈ (fn.block p).successors) entry r ↔
      ReflTransGen (fun a b => fn.hasEdge a b = true) (fn.label entry) (fn.label r) := by
  refine ⟨fun hsteps => (h.path_of_steps hentry hsteps).2, fun hpath => ?_⟩
  obtain ⟨q, hq, hlabel, hsteps⟩ := h.steps_of_path hentry hpath
  rwa [h.apart q hq r hr hlabel] at hsteps

end SelfContained

/-! ## The result -/

open scoped Classical in
/-- **Edges and reachability are exact.** There is an edge from `u` to `v` exactly if a block of the
body labelled `u` ends in an instruction that may send control to a block labelled `v`. Nothing is
unreachable in a function without blocks. Otherwise the unreachable blocks are those of the body, in
order, whose labels no path of edges reaches from the label of the entry. Where labels tell the
blocks of the body apart and control stays among them, they are those that no sequence of steps
reaches from the entry. -/
theorem flow_exact (fn : Func) :
    (∀ u v, fn.hasEdge u v = true ↔ ∃ r ∈ fn.layout, fn.label r = u ∧
      ∃ i, (fn.block r).body.getLast? = some i ∧ i.op.isTerminator = true ∧
        ∃ s ∈ i.op.targets, fn.label s = v) ∧
    (fn.layout = [] → fn.unreachable = []) ∧
    ∀ entry rest, fn.layout = entry :: rest →
      fn.unreachable = fn.layout.filter (fun r => decide
        (¬ ReflTransGen (fun a b => fn.hasEdge a b = true) (fn.label entry) (fn.label r))) ∧
      ((∀ p ∈ fn.layout, ∀ q ∈ fn.layout, fn.label p = fn.label q → p = q) →
        (∀ p ∈ fn.layout, ∀ q ∈ (fn.block p).successors, q ∈ fn.layout) →
        fn.unreachable = fn.layout.filter (fun r => decide
          (¬ ReflTransGen (fun p q => q ∈ (fn.block p).successors) entry r))) := by
  refine ⟨fun u v => ?_, fun hnil => ?_, fun entry rest hlayout => ?_⟩
  · rw [hasEdge_iff]
    unfold Links
    simp only [Block.mem_successors_iff]
    grind
  · simp [unreachable, hnil]
  · have hlabels : fn.unreachable = fn.layout.filter (fun r => decide
        (¬ ReflTransGen (fun a b => fn.hasEdge a b = true) (fn.label entry) (fn.label r))) := by
      unfold unreachable
      refine List.filter_congr fun r _ => ?_
      simp only [mem_reached_iff hlayout]
    refine ⟨hlabels, fun hapart hclosed => ?_⟩
    have hentry : entry ∈ fn.layout := by simp [hlayout]
    have hself : fn.SelfContained := ⟨hapart, hclosed⟩
    rw [hlabels]
    refine List.filter_congr fun r hr => ?_
    simp only [hself.steps_iff_path hentry hr]

/-- The entry may send control to itself, and to a block outside the body that has the label of one
inside. Control then comes by labels where it does not come by blocks. -/
def eddy : Func where
  name := "eddy"
  pool := [
    ⟨-1, [⟨0, .branch (.lit 1) 0 4⟩], [0]⟩,
    ⟨9, [⟨1, .jump 2⟩], []⟩,
    ⟨2, [⟨2, .store (.lit 0) (.lit 1)⟩], [1]⟩,
    ⟨4, [⟨3, .jump 3⟩], [3]⟩,
    ⟨9, [], [0]⟩]
  layout := [0, 1, 2, 3]

open scoped Classical in
theorem eddy_flow :
    (eddy.hasEdge (-1) (-1) = true ∧ eddy.unreachable = [3] ∧
      [3] = eddy.layout.filter (fun r => decide
        (¬ ReflTransGen (fun a b => eddy.hasEdge a b = true) (-1) (eddy.label r)))) ∧
    detour.unreachable = [3] ∧
      [3] = detour.layout.filter (fun r => decide
        (¬ ReflTransGen (fun p q => q ∈ (detour.block p).successors) 0 r)) := by
  have heddy : eddy.unreachable = [3] := by
    have hreached : eddy.reached = [2, 9, -1] := by cbv
    rw [unreachable, hreached]
    decide
  have hdetour : detour.unreachable = [3] := by
    have hreached : detour.reached = [30, 20, 10] := by cbv
    rw [unreachable, hreached]
    decide
  refine ⟨⟨by cbv, heddy, ?_⟩, hdetour, ?_⟩
  · rw [← heddy]
    exact ((flow_exact eddy).2.2 0 [1, 2, 3] rfl).1
  · rw [← hdetour]
    exact ((flow_exact detour).2.2 0 [1, 2, 3] rfl).2 (by decide) (by decide)

end Func

end Deadwood
