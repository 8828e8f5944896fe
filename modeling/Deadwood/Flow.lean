import Deadwood.Func

/-!
# Control flow

The control flow graph of a function has the labels of its blocks for nodes. There is an edge from
`u` to `v` when a block of the body labelled `u` ends in an instruction that may send control to a
block labelled `v`. Blocks that share a label are one node, and an edge may lead to a block outside
the body. Edges from a node to itself are kept apart from the others (`Graph`), so a question about
an edge is answered from one of two lists (`hasEdge_eq`).

`reach` is a worklist search along edges. Every step takes one label off the list; a label that
is new puts its out-edges on it, and these edges then no longer count as edges of a label unseen.
So labels waiting plus edges of unseen labels is a measure that falls at every step. The search from
the entry follows the edges between different nodes only.
-/

namespace Deadwood

/-- An edge of a control flow graph, from label to label. -/
abbrev Edge := Int × Int

namespace Flow

/-- Where the edges out of a label lead. -/
def next (edges : List Edge) (u : Int) : List Int :=
  (edges.filter fun e => e.1 = u).map (·.2)

/-- The edges whose source is not among `seen`. -/
def fresh (edges : List Edge) (seen : List Int) : List Edge :=
  edges.filter fun e => e.1 ∉ seen

/-- Seeing a label uses up its out-edges. -/
theorem length_next_add_fresh (edges : List Edge) {u : Int} {seen : List Int} (h : u ∉ seen) :
    (next edges u).length + (fresh edges (u :: seen)).length = (fresh edges seen).length := by
  unfold next fresh
  rw [List.length_map]
  induction edges with
  | nil => rfl
  | cons e rest ih =>
    by_cases hu : e.1 = u
    · rw [List.filter_cons_of_pos (by simpa using hu), List.filter_cons_of_neg (by simp [hu]),
        List.filter_cons_of_pos (by simpa [hu] using h), List.length_cons, List.length_cons]
      omega
    · rw [List.filter_cons_of_neg (by simpa using hu)]
      by_cases hs : e.1 ∈ seen
      · rw [List.filter_cons_of_neg (by simp [hs]), List.filter_cons_of_neg (by simp [hs])]
        exact ih
      · rw [List.filter_cons_of_pos (by simp [hu, hs]), List.filter_cons_of_pos (by simp [hs]),
          List.length_cons, List.length_cons]
        omega

/-- The labels of `seen`, and those that edges lead to from the labels of `todo`. -/
def reach (edges : List Edge) (todo seen : List Int) : List Int :=
  match todo with
  | [] => seen
  | u :: rest =>
    if u ∈ seen then reach edges rest seen
    else reach edges (next edges u ++ rest) (u :: seen)
termination_by todo.length + (fresh edges seen).length
decreasing_by
  · simp only [List.length_cons]
    omega
  · rename_i h
    have := length_next_add_fresh edges h
    simp only [List.length_append, List.length_cons]
    omega

end Flow

/-- A control flow graph. -/
structure Graph where
  /-- The edges between different nodes. -/
  links : List Edge
  /-- The nodes with an edge to themselves. -/
  loops : List Int

/-- Whether the graph has an edge from `u` to `v`. -/
def Graph.hasEdge (g : Graph) (u v : Int) : Bool :=
  if u = v then decide (u ∈ g.loops) else decide ((u, v) ∈ g.links)

namespace Func

/-- The edges of the control flow graph, block by block. -/
def edges (fn : Func) : List Edge :=
  fn.body.flatMap fun b => b.successors.map fun s => (b.label, fn.label s)

/-- The control flow graph. -/
def graph (fn : Func) : Graph where
  links := fn.edges.filter fun e => e.1 ≠ e.2
  loops := (fn.edges.filter fun e => e.1 = e.2).map (·.1)

/-- Whether control may pass directly from a block labelled `u` to one labelled `v`. -/
def hasEdge (fn : Func) (u v : Int) : Bool := fn.graph.hasEdge u v

/-- No edge is lost by keeping those from a node to itself apart. -/
theorem hasEdge_eq (fn : Func) (u v : Int) : fn.hasEdge u v = decide ((u, v) ∈ fn.edges) := by
  by_cases h : u = v
  · subst h
    simp [hasEdge, Graph.hasEdge, graph]
  · simp [hasEdge, Graph.hasEdge, graph, h]

/-- The nodes of the control flow graph, ascending. -/
def nodes (fn : Func) : List Int :=
  (fn.body.map (·.label) ++ fn.edges.map (·.2)).eraseDups.mergeSort fun u v => decide (u ≤ v)

/-- The edges between different nodes, ascending by source and then by target. -/
def links (fn : Func) : List Edge :=
  fn.graph.links.eraseDups.mergeSort fun d e =>
    decide (d.1 < e.1 ∨ d.1 = e.1 ∧ d.2 ≤ e.2)

/-- The nodes with an edge to themselves, ascending. -/
def loops (fn : Func) : List Int := fn.nodes.filter fun u => fn.hasEdge u u

/-- The labels that control may reach from the entry. -/
def reached (fn : Func) : List Int :=
  match fn.entry? with
  | some b => Flow.reach fn.graph.links [b.label] []
  | none => []

/-- The blocks of the body, in order, whose labels control cannot reach from the entry. -/
def unreachable (fn : Func) : List BlockRef :=
  let seen := fn.reached
  fn.layout.filter fun r => fn.label r ∉ seen

end Func

end Deadwood
