import ChartParsing.Descent
import ChartParsing.Proofs.Choices
import ChartParsing.Proofs.Forest.Unfolding

/-!
# Trees of a forest

The trees of a forest come from those of its children: a leaf stands for one tree, and any other
forest for one tree for each alternative and each choice of trees for its children.

## Main definitions

* `Forest.Unmixed`, `SharedForests.Unmixed`: no forest stands both for a leaf and for nodes.

## Main results

* `Forest.trees_of_isLeaf`, `Forest.trees_node_of_not_isLeaf`: the equations of `Forest.trees`.
* `Forest.mem_trees_node`, `Forest.nodup_trees_node`: the trees of a forest that is no leaf.
* `Forest.trees_ne_nil`: there is a tree in every forest.
* `ForestGraph.forall_forestAt?_of_reaches`: induction on the forests below a node.
-/

namespace ChartParsing

universe u

variable {K : Type u}

/-! ### Trees -/

namespace Forest

theorem trees_of_isLeaf {f : Forest K} (h : f.isLeaf) : f.trees = [.leaf f.label] := by
  cases f with
  | node label alternatives =>
    rw [trees, fold_node, expand, all_isEmpty_map _ label, if_pos h]
    rfl

theorem trees_node_of_not_isLeaf {label : K} {alternatives : List (List (Forest K))}
    (h : ¬(node label alternatives).isLeaf) :
    (node label alternatives).trees = alternatives.flatMap fun children =>
      (choices (children.map trees)).map (.node label) := by
  rw [trees, fold_node, expand, all_isEmpty_map _ label, if_neg h, List.flatMap_map]
  simp only [combinations_eq_choices]
  rfl

theorem mem_trees_node {label : K} {alternatives : List (List (Forest K))}
    (h : ¬(node label alternatives).isLeaf) {t : Tree K} :
    t ∈ (node label alternatives).trees ↔
      ∃ children ∈ alternatives, ∃ ts ∈ choices (children.map trees), .node label ts = t := by
  simp only [trees_node_of_not_isLeaf h, List.mem_flatMap, List.mem_map]

/-- A forest stands for no tree twice, if its children do not and no two of its alternatives have a
choice in common. -/
theorem nodup_trees_node {label : K} {alternatives : List (List (Forest K))}
    (hchildren : ∀ children ∈ alternatives, ∀ child ∈ children, child.trees.Nodup)
    (hdisjoint : alternatives.Pairwise fun a b =>
      ∀ ts ∈ choices (a.map trees), ts ∉ choices (b.map trees)) :
    (node label alternatives).trees.Nodup := by
  by_cases h : (node label alternatives).isLeaf
  · rw [trees_of_isLeaf h]
    exact List.nodup_singleton _
  · have hinj : Function.Injective (Tree.node label) := fun _ _ heq => (Tree.node.inj heq).2
    rw [trees_node_of_not_isLeaf h, List.nodup_flatMap]
    refine ⟨fun children hmem => (nodup_choices fun ts hts => ?_).map hinj,
      hdisjoint.imp fun {a b} hab => ?_⟩
    · obtain ⟨child, hchild, rfl⟩ := List.mem_map.1 hts
      exact hchildren children hmem child hchild
    · refine List.disjoint_left.2 fun t ht ht' => ?_
      obtain ⟨ts, hts, rfl⟩ := List.mem_map.1 ht
      exact hab ts hts ((List.mem_map_of_injective hinj).1 ht')

/-- Every forest stands for a tree. -/
theorem trees_ne_nil (f : Forest K) : f.trees ≠ [] := by
  induction f using forall_of_children with
  | step label alternatives ih =>
    by_cases h : (node label alternatives).isLeaf
    · rw [trees_of_isLeaf h]
      exact List.cons_ne_nil _ _
    · have hne : alternatives ≠ [] := by
        rintro rfl
        exact h rfl
      obtain ⟨children, hmem⟩ := List.exists_mem_of_ne_nil _ hne
      have hchoices : choices (children.map trees) ≠ [] := choices_ne_nil fun hnil => by
        obtain ⟨child, hchild, hempty⟩ := List.mem_map.1 hnil
        exact ih children hmem child hchild hempty
      obtain ⟨ts, hts⟩ := List.exists_mem_of_ne_nil _ hchoices
      exact List.ne_nil_of_mem ((mem_trees_node h).2 ⟨children, hmem, ts, hts, rfl⟩)

theorem key_of_mem_trees {f : Forest K} {t : Tree K} (h : t ∈ f.trees) : t.key = f.label := by
  by_cases hleaf : f.isLeaf
  · rw [trees_of_isLeaf hleaf, List.mem_singleton] at h
    rw [h]
    rfl
  · obtain ⟨label, alternatives⟩ := f
    obtain ⟨_, -, _, -, rfl⟩ := (mem_trees_node hleaf).1 h
    rfl

end Forest

/-! ### Forests below a node -/

namespace ForestGraph

variable {g : ForestGraph K}

/-- A property holds of the forests below a node if it passes from the children of each of the nodes
to the node. -/
theorem forall_forestAt?_of_reaches {r : Nat} {motive : Forest K → Prop}
    (step : ∀ i n, Reaches g.children r i → g.nodes[i]? = some n →
      (∀ children ∈ n.alternatives.map (List.filterMap g.forestAt?), ∀ child ∈ children,
        motive child) →
      motive (.node n.label (n.alternatives.map (List.filterMap g.forestAt?))))
    {i : Nat} (hreach : Reaches g.children r i) {f : Forest K} (hf : g.forestAt? i = some f) :
    motive f := by
  induction i using Nat.strongRecOn generalizing f with
  | ind i ih =>
    obtain ⟨n, hn, rfl⟩ := exists_node_of_forestAt?_eq_some hf
    refine step i n hreach hn fun children hchildren child hchild => ?_
    obtain ⟨numbers, hnumbers, rfl⟩ := List.mem_map.1 hchildren
    obtain ⟨c, hc, hforest⟩ := List.mem_filterMap.1 hchild
    have hmem := mem_children hn hnumbers hc
    exact ih c (lt_of_mem_children hmem) (hreach.trans (.step hmem (.refl c))) hforest

end ForestGraph

/-! ### Forests that are leaves or have children everywhere -/

/-- No part of the forest stands both for a leaf and for nodes. -/
inductive Forest.Unmixed : Forest K → Prop where
  /-- Either no alternative has children, or all have. -/
  | node {label : K} {alternatives : List (List (Forest K))}
      (uniform : (Forest.node label alternatives).isLeaf ∨ [] ∉ alternatives)
      (each : ∀ children ∈ alternatives, ∀ child ∈ children, Unmixed child) :
      Unmixed (.node label alternatives)

/-- No forest below the roots has both an alternative without children and one with children. -/
def SharedForests.Unmixed (fs : SharedForests K) : Prop :=
  ∀ r ∈ fs.roots, ∀ i, Reaches fs.graph.children r i → ∀ n, fs.graph.nodes[i]? = some n →
    ¬([] ∈ n.alternatives ∧ ∃ children ∈ n.alternatives, children ≠ [])

namespace SharedForests

theorem Unmixed.of_reaches {fs : SharedForests K} (h : fs.Unmixed) {r i : Nat} (hr : r ∈ fs.roots)
    (hreach : Reaches fs.graph.children r i) {f : Forest K} (hf : fs.graph.forestAt? i = some f) :
    f.Unmixed := by
  refine ForestGraph.forall_forestAt?_of_reaches (fun i n hreach hn ih => .node ?_ ih) hreach hf
  by_cases hmem : [] ∈ n.alternatives
  · refine .inl (List.all_eq_true.2 fun children hchildren => ?_)
    obtain ⟨l, hl, rfl⟩ := List.mem_map.1 hchildren
    have hl' : l = [] := not_not.1 fun hne => h r hr i hreach n hn ⟨hmem, l, hl, hne⟩
    rw [hl']
    rfl
  · refine .inr fun hmem' => hmem ?_
    obtain ⟨l, hl, hempty⟩ := List.mem_map.1 hmem'
    rwa [(ForestGraph.filterMap_forestAt?_eq_nil_iff hn hl).1 hempty] at hl

end SharedForests

end ChartParsing
