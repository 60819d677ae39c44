import ChartParsing.Forest.Basic

/-!
# Tables of shared forests

Forests that share their parts are kept as a table of nodes. A node has a label and alternatives,
and names its children by their numbers in the table. A child always stands before its parent, so
the table has no cycles and every quantity of forests can be computed in one pass from the first
node to the last.

The number of a node is its identity: two nodes may stand for equal forests.

## Main definitions

* `ForestNode`, `ForestGraph`: the nodes and the table.
* `ForestGraph.push`, `ForestGraph.ofNodes`: building a table.
* `ForestGraph.children`: what a node points to.

## Main results

* `ForestGraph.nodes_push_of_lt`: a node whose children are in the table is added as it is.
* `ForestGraph.lt_of_mem_children`: a node points to smaller numbers only.
-/

namespace ChartParsing

universe u

/-! ### Nodes -/

/-- A label with alternatives, whose children are numbers of nodes. -/
structure ForestNode (K : Type u) where
  /-- The label of the forest. -/
  label : K
  /-- Its alternatives, each a list of children. -/
  alternatives : List (List Nat)
deriving DecidableEq

namespace ForestNode

variable {K : Type u}

/-- The children of all alternatives, in order. -/
def children (n : ForestNode K) : List Nat := n.alternatives.flatten

/-- A node is a leaf when none of its alternatives has children. -/
def isLeaf (n : ForestNode K) : Bool := n.alternatives.all List.isEmpty

/-- A node is ambiguous when it has more than one alternative. -/
def isAmbiguous (n : ForestNode K) : Bool := 1 < n.alternatives.length

/-- The node without the children that `number?` does not know, the others renumbered. -/
def renumber (n : ForestNode K) (number? : Nat → Option Nat) : ForestNode K :=
  { n with alternatives := n.alternatives.map (List.filterMap number?) }

/-- The node without the children whose numbers are not below `size`. -/
def restrict (n : ForestNode K) (size : Nat) : ForestNode K :=
  { n with alternatives := n.alternatives.map (List.filter (· < size)) }

theorem children_eq_nil {n : ForestNode K} (h : n.isLeaf) : n.children = [] :=
  List.flatten_eq_nil_iff.2 fun _ hmem => List.isEmpty_iff.1 (List.all_eq_true.1 h _ hmem)

private theorem lt_of_mem_restrict {n : ForestNode K} {size c : Nat}
    (h : c ∈ (n.restrict size).children) : c < size := by
  simp only [children, restrict, List.mem_flatten, List.mem_map] at h
  obtain ⟨_, ⟨l, _, rfl⟩, hc⟩ := h
  simpa using (List.mem_filter.1 hc).2

theorem restrict_eq_self {n : ForestNode K} {size : Nat} (h : ∀ c ∈ n.children, c < size) :
    n.restrict size = n := by
  have keep : ∀ l ∈ n.alternatives, l.filter (· < size) = id l := fun l hl =>
    List.filter_eq_self.2 fun c hc => by simpa using h c (List.mem_flatten.2 ⟨l, hl, hc⟩)
  rw [restrict, List.map_congr_left keep, List.map_id]

end ForestNode

/-! ### Graphs -/

/-- A table of nodes in which children stand before their parents. -/
structure ForestGraph (K : Type u) where
  /-- The nodes by number. -/
  nodes : Array (ForestNode K)
  /-- Every child has a smaller number than its parent. -/
  children_lt : ∀ (i : Nat) (h : i < nodes.size), ∀ c ∈ nodes[i].children, c < i

namespace ForestGraph

variable {K : Type u}

/-- The table without nodes. -/
def empty : ForestGraph K := ⟨#[], fun i h => absurd h (Nat.not_lt_zero i)⟩

/-- The number of nodes. -/
def size (g : ForestGraph K) : Nat := g.nodes.size

/-- The table with one more node, numbered `g.size`. Children that are not in the table are left
out. -/
def push (g : ForestGraph K) (n : ForestNode K) : ForestGraph K where
  nodes := g.nodes.push (n.restrict g.nodes.size)
  children_lt i h c hc := by
    rw [Array.getElem_push] at hc
    split at hc
    · next hi => exact g.children_lt i hi c hc
    · next hi =>
      have := ForestNode.lt_of_mem_restrict hc
      simp only [Array.size_push] at h
      omega

/-- The table of a list of nodes that name only nodes before them. -/
def ofNodes (nodes : List (ForestNode K)) : ForestGraph K :=
  nodes.foldl push empty

theorem size_push (g : ForestGraph K) (n : ForestNode K) : (g.push n).size = g.size + 1 := by
  simp [push, size]

theorem nodes_push_of_lt {g : ForestGraph K} {n : ForestNode K}
    (h : ∀ c ∈ n.children, c < g.size) : (g.push n).nodes = g.nodes.push n := by
  show g.nodes.push (n.restrict g.size) = _
  rw [ForestNode.restrict_eq_self h]

/-- The children of a node, those of all alternatives in order. -/
def children (g : ForestGraph K) (i : Nat) : List Nat :=
  (g.nodes[i]?.map ForestNode.children).getD []

theorem children_eq {g : ForestGraph K} {i : Nat} {n : ForestNode K} (hn : g.nodes[i]? = some n) :
    g.children i = n.children := by
  rw [children, hn]
  rfl

theorem mem_children {g : ForestGraph K} {i c : Nat} {n : ForestNode K}
    (hn : g.nodes[i]? = some n) {children : List Nat} (hmem : children ∈ n.alternatives)
    (hc : c ∈ children) : c ∈ g.children i := by
  rw [children_eq hn]
  exact List.mem_flatten.2 ⟨children, hmem, hc⟩

theorem lt_of_mem_children {g : ForestGraph K} {i c : Nat} (h : c ∈ g.children i) : c < i := by
  by_cases hi : i < g.nodes.size
  · exact g.children_lt i hi c (by simpa [children, hi] using h)
  · simp [children, hi] at h

end ForestGraph

end ChartParsing
