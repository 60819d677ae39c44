import ChartParsing.Descent
import ChartParsing.Forest.Shared
import Mathlib.Data.List.Basic
import Mathlib.Data.Set.Defs

/-!
# Unfolding a table of nodes

The forest that a node stands for is unfolded from the nodes below it. A node is added to a table
behind the others, which stay as they are.

## Main definitions

* `SharedForests.objects`: the nodes that can be reached from the roots.

## Main results

* `Forest.forall_of_children`: induction on forests.
* `ForestGraph.nodes_ofNodes`: a table is made of the listed nodes.
* `ForestGraph.getElem?_nodes_push_of_lt`, `ForestGraph.getElem?_nodes_push_size`: the nodes of a
  table with one more node.
* `ForestGraph.isLeaf_unfolded`: a node is a leaf if its forest is one.
* `SharedForests.toForests_ofRoots`: the forests of chosen roots.
-/

namespace ChartParsing

universe u v w

variable {K : Type u}

/-! ### Lists of results -/

theorem mapM_eq_some_map {α : Type u} {β : Type v} {l : List α} {f : α → Option β} {g : α → β}
    (h : ∀ a ∈ l, f a = some (g a)) : l.mapM f = some (l.map g) := by
  induction l with
  | nil => rfl
  | cons a l ih =>
    rw [List.forall_mem_cons] at h
    rw [List.mapM_cons, h.1, ih h.2]
    rfl

/-- Steps that succeed with values of what is found for each item succeed with these values
together. -/
theorem mapM_eq_some_map_filterMap {α : Type u} {β : Type v} {γ : Type w} {l : List α}
    {f : α → Option γ} {found : α → Option β} {value : β → γ}
    (h : ∀ a ∈ l, ∃ b, found a = some b ∧ f a = some (value b)) :
    l.mapM f = some ((l.filterMap found).map value) := by
  induction l with
  | nil => rfl
  | cons a l ih =>
    rw [List.forall_mem_cons] at h
    obtain ⟨⟨b, hb, hf⟩, hrest⟩ := h
    rw [List.mapM_cons, hf, ih hrest, List.filterMap_cons_some hb, List.map_cons]
    rfl

theorem exists_of_mapM_eq_some {α : Type u} {β : Type v} {l : List α} {f : α → Option β}
    {results : List β} (h : l.mapM f = some results) : ∀ a ∈ l, ∃ b, f a = some b := by
  induction l generalizing results with
  | nil => simp
  | cons a l ih =>
    rw [List.mapM_cons] at h
    obtain ⟨b, hb, hrest⟩ := Option.bind_eq_some_iff.1 h
    obtain ⟨_, hl, -⟩ := Option.bind_eq_some_iff.1 hrest
    exact List.forall_mem_cons.2 ⟨⟨b, hb⟩, ih hl⟩

/-! ### Induction on forests -/

namespace Forest

mutual

/-- A property holds of all forests if it passes from the children to the forest. -/
theorem forall_of_children {motive : Forest K → Prop}
    (step : ∀ label alternatives, (∀ children ∈ alternatives, ∀ child ∈ children, motive child) →
      motive (.node label alternatives)) : (f : Forest K) → motive f
  | .node label alternatives => step label alternatives (forall_alternatives step alternatives)

private theorem forall_alternatives {motive : Forest K → Prop}
    (step : ∀ label alternatives, (∀ children ∈ alternatives, ∀ child ∈ children, motive child) →
      motive (.node label alternatives)) : (alternatives : List (List (Forest K))) →
    ∀ children ∈ alternatives, ∀ child ∈ children, motive child
  | [] => by simp
  | children :: rest => by
    rw [List.forall_mem_cons]
    exact ⟨forall_childList step children, forall_alternatives step rest⟩

private theorem forall_childList {motive : Forest K → Prop}
    (step : ∀ label alternatives, (∀ children ∈ alternatives, ∀ child ∈ children, motive child) →
      motive (.node label alternatives)) : (children : List (Forest K)) →
    ∀ child ∈ children, motive child
  | [] => by simp
  | child :: rest => by
    rw [List.forall_mem_cons]
    exact ⟨forall_of_children step child, forall_childList step rest⟩

end

theorem all_isEmpty_map {β : Type v} (f : Forest K → β) (label : K)
    (alternatives : List (List (Forest K))) :
    (alternatives.map (List.map f)).all List.isEmpty = (node label alternatives).isLeaf := by
  simp [isLeaf, Forest.alternatives, Function.comp_def]

end Forest

namespace ForestGraph

/-! ### Building a table -/

private theorem nodes_foldl_push (nodes : List (ForestNode K)) (g : ForestGraph K)
    (h : ∀ i n, nodes[i]? = some n → ∀ c ∈ n.children, c < g.size + i) :
    (nodes.foldl push g).nodes.toList = g.nodes.toList ++ nodes := by
  induction nodes generalizing g with
  | nil => simp
  | cons n nodes ih =>
    have hpush : (g.push n).nodes = g.nodes.push n := nodes_push_of_lt (h 0 n rfl)
    rw [List.foldl_cons, ih (g.push n) ?_, hpush, Array.toList_push, List.append_assoc]
    · rfl
    · intro i m hm c hc
      have hlt := h (i + 1) m hm c hc
      rw [size_push]
      omega

/-- A table of nodes that name only nodes before them holds these nodes. -/
theorem nodes_ofNodes {nodes : List (ForestNode K)}
    (h : ∀ i (n : ForestNode K), nodes[i]? = some n → ∀ c ∈ n.children, c < i) :
    (ofNodes nodes).nodes.toList = nodes :=
  nodes_foldl_push nodes empty fun i n hn c hc => by
    rw [show (empty : ForestGraph K).size = 0 from rfl, Nat.zero_add]
    exact h i n hn c hc

variable {g : ForestGraph K}

/-- Adding a node leaves the nodes of the table as they are. -/
theorem getElem?_nodes_push_of_lt {i : Nat} (h : i < g.size) (n : ForestNode K) :
    (g.push n).nodes[i]? = g.nodes[i]? := by
  rw [push, Array.getElem?_push_lt h, Array.getElem?_eq_getElem h]

theorem getElem?_nodes_push_size {n : ForestNode K} (h : ∀ c ∈ n.children, c < g.size) :
    (g.push n).nodes[g.size]? = some n := by
  rw [nodes_push_of_lt h, size, Array.getElem?_push_size]

/-! ### Forests of nodes -/

theorem forestAt?_eq_none_iff {i : Nat} : g.forestAt? i = none ↔ g.size ≤ i := by
  rw [forestAt?, Array.getElem?_eq_none_iff, unfoldings, size_tabulate]

theorem isSome_forestAt?_iff {i : Nat} : (g.forestAt? i).isSome ↔ i < g.size := by
  rw [Option.isSome_iff_ne_none, ne_eq, forestAt?_eq_none_iff, Nat.not_le]

theorem exists_node_of_forestAt?_eq_some {i : Nat} {f : Forest K} (h : g.forestAt? i = some f) :
    ∃ n, g.nodes[i]? = some n ∧
      f = .node n.label (n.alternatives.map (List.filterMap g.forestAt?)) := by
  rw [forestAt?_eq, Option.map_eq_some_iff] at h
  obtain ⟨n, hn, rfl⟩ := h
  exact ⟨n, hn, rfl⟩

theorem exists_node_of_mem_children {i c : Nat} (h : c ∈ g.children i) :
    ∃ n, g.nodes[i]? = some n := by
  refine Option.ne_none_iff_exists'.1 fun hnone => ?_
  rw [children, hnone] at h
  cases h

theorem exists_child_of_mem_children {i c : Nat} (h : c ∈ g.children i) :
    ∃ n, g.nodes[c]? = some n := by
  obtain ⟨n, hn⟩ := exists_node_of_mem_children h
  have hi : i < g.nodes.size := (Array.getElem?_eq_some_iff.1 hn).1
  exact ⟨_, Array.getElem?_eq_getElem (Nat.lt_trans (lt_of_mem_children h) hi)⟩

theorem exists_forestAt?_of_mem_children {i c : Nat} (h : c ∈ g.children i) :
    ∃ f, g.forestAt? c = some f := by
  obtain ⟨n, hn⟩ := exists_child_of_mem_children h
  rw [forestAt?_eq, hn]
  exact ⟨_, rfl⟩

/-- No child is without a forest, so an alternative is empty before unfolding if it is so after. -/
theorem filterMap_forestAt?_eq_nil_iff {i : Nat} {n : ForestNode K} (hn : g.nodes[i]? = some n)
    {children : List Nat} (hmem : children ∈ n.alternatives) :
    children.filterMap g.forestAt? = [] ↔ children = [] := by
  refine ⟨fun hempty => List.eq_nil_iff_forall_not_mem.2 fun c hc => ?_, fun h => by rw [h]; rfl⟩
  obtain ⟨f, hf⟩ := exists_forestAt?_of_mem_children (mem_children hn hmem hc)
  cases hf.symm.trans (List.filterMap_eq_nil_iff.1 hempty c hc)

/-- A node is a leaf if its forest is one. -/
theorem isLeaf_unfolded {i : Nat} {n : ForestNode K} (hn : g.nodes[i]? = some n) :
    (Forest.node n.label (n.alternatives.map (List.filterMap g.forestAt?))).isLeaf = n.isLeaf := by
  rw [Forest.isLeaf, Forest.alternatives, ForestNode.isLeaf, Bool.eq_iff_iff, List.all_eq_true,
    List.all_eq_true, List.forall_mem_map]
  refine forall₂_congr fun children hmem => ?_
  rw [List.isEmpty_iff, List.isEmpty_iff, filterMap_forestAt?_eq_nil_iff hn hmem]

end ForestGraph

namespace SharedForests

/-- The nodes that can be reached from the roots. -/
def objects (fs : SharedForests K) : Set Nat :=
  {m | ∃ r ∈ fs.roots, Reaches fs.graph.children r m}

theorem mem_objects_of_mem_roots {fs : SharedForests K} {r : Nat} (h : r ∈ fs.roots) :
    r ∈ fs.objects :=
  ⟨r, h, .refl r⟩

theorem mem_objects_of_reaches {fs : SharedForests K} {i j : Nat} (h : i ∈ fs.objects)
    (hreach : Reaches fs.graph.children i j) : j ∈ fs.objects :=
  h.imp fun _ hr => hr.imp_right fun path => path.trans hreach

theorem mem_objects_of_mem_children {fs : SharedForests K} {i c : Nat} (h : i ∈ fs.objects)
    (hc : c ∈ fs.graph.children i) : c ∈ fs.objects :=
  mem_objects_of_reaches h (.step hc (.refl c))

theorem exists_node_of_mem_objects {fs : SharedForests K} {i : Nat} (h : i ∈ fs.objects) :
    ∃ n, fs.graph.nodes[i]? = some n := by
  obtain ⟨r, hr, hreach⟩ := h
  have hlt : i < fs.graph.size :=
    Nat.lt_of_le_of_lt (hreach.le fun _ _ => ForestGraph.lt_of_mem_children) (fs.roots_lt r hr)
  exact ⟨_, Array.getElem?_eq_getElem hlt⟩

theorem mem_toForests {fs : SharedForests K} {f : Forest K} :
    f ∈ fs.toForests ↔ ∃ r ∈ fs.roots, fs.graph.forestAt? r = some f :=
  List.mem_filterMap

theorem exists_forestAt?_of_mem_roots {fs : SharedForests K} {r : Nat} (h : r ∈ fs.roots) :
    ∃ f, fs.graph.forestAt? r = some f :=
  Option.isSome_iff_exists.1 (ForestGraph.isSome_forestAt?_iff.2 (fs.roots_lt r h))

theorem toForests_ne_nil {fs : SharedForests K} (h : fs.roots ≠ []) : fs.toForests ≠ [] := by
  obtain ⟨r, hr⟩ := List.exists_mem_of_ne_nil _ h
  obtain ⟨f, hf⟩ := exists_forestAt?_of_mem_roots hr
  exact List.ne_nil_of_mem (mem_toForests.2 ⟨r, hr, hf⟩)

/-- The forests of chosen roots. -/
theorem toForests_ofRoots (g : ForestGraph K) (roots : List Nat) :
    (ofRoots g roots).toForests = roots.filterMap g.forestAt? := by
  have hroots : ∀ r, r < g.size ∨ g.forestAt? r = none := fun r => by
    rw [ForestGraph.forestAt?_eq_none_iff]
    exact Nat.lt_or_ge r g.size
  show (roots.filter (· < g.size)).filterMap g.forestAt? = _
  rw [List.filterMap_filter]
  refine List.filterMap_congr fun r _ => ?_
  obtain hlt | hnone := hroots r
  · simp [hlt]
  · simp [hnone]

end SharedForests

end ChartParsing
