import ChartParsing.Proofs.Forest.Trees
import ChartParsing.Proofs.ValuesInOrder

/-!
# Trees by selection

A tree is had from a forest by selecting an alternative at every occurrence of a forest in it. Where
a part is shared, each occurrence has a selection of its own. The trees of a forest are listed in
the order of these selections: by the alternative at the top, then by the selection for the first
child, then by that for the second one, and so on. A tree that several selections give is listed for
each of them.

## Main definitions

* `Selection`, `Selection.Before`: selections, and their order.
* `ForestGraph.selected?`: the tree that a selection gives for a node.
* `ForestGraph.treesOf`: the trees that a node stands for.
* `ForestGraph.ListsTrees`: how a list of trees is made from a node, and from the selections.

## Main results

* `ForestGraph.treesOf_of_isLeaf`, `ForestGraph.treesOf_of_not_isLeaf`: the trees of a node.
* `ForestGraph.valuesInOrder_treesOf`: the trees of a node in the order of the selections.
* `ForestGraph.trees_listed`: the trees of a node are listed in order, each as often as it is
  selected.
-/

namespace ChartParsing

universe u

/-! ### Selections -/

/-- An alternative for every occurrence of a forest in another one. -/
inductive Selection where
  /-- At a leaf there is nothing to select. -/
  | leaf
  /-- Elsewhere the place of an alternative is selected, and for each of its children again. -/
  | node (alternative : Nat) (below : List Selection)

namespace Selection

/-- One selection comes before another. -/
inductive Before : Selection → Selection → Prop where
  /-- It has an earlier alternative. -/
  | alternative {a b : Nat} (h : a < b) (below below' : List Selection) :
    Before (.node a below) (.node b below')
  /-- It has the same alternative, and an earlier selection for the first child with another one. -/
  | deeper (a : Nat) {below below' : List Selection} (h : List.Lex Before below below') :
    Before (.node a below) (.node a below')

private theorem not_lex_self {α : Type u} {r : α → α → Prop} {l : List α} (h : ∀ a ∈ l, ¬r a a) :
    ¬List.Lex r l l := by
  -- `List.lex_irrefl` asks this of all items, but the recursion below knows it of these only.
  induction l with
  | nil => exact nofun
  | cons a l ih =>
    rw [List.forall_mem_cons] at h
    intro hlex
    cases hlex with
    | rel hrel => exact h.1 hrel
    | cons hrest => exact ih h.2 hrest

theorem not_before_self : (s : Selection) → ¬s.Before s
  | .leaf => nofun
  | .node a below => fun
    | .alternative h _ _ => Nat.lt_irrefl a h
    | .deeper _ h => not_lex_self (fun s _ => not_before_self s) h

end Selection

variable {K : Type u}

namespace ForestGraph

mutual

/-- The tree that a selection gives for a node, if it is one for this node. -/
def selected? (g : ForestGraph K) : Selection → Nat → Option (Tree K)
  | .leaf, i => g.nodes[i]?.bind fun n => if n.isLeaf then some (.leaf n.label) else none
  | .node alternative below, i => g.nodes[i]?.bind fun n =>
      if n.isLeaf then none
      else n.alternatives[alternative]?.bind fun children =>
        (g.selectedEach? below children).map (.node n.label)

/-- The trees that selections give for as many nodes. -/
def selectedEach? (g : ForestGraph K) : List Selection → List Nat → Option (List (Tree K))
  | [], [] => some []
  | s :: ss, c :: cs => (g.selected? s c).bind fun t => (g.selectedEach? ss cs).map (t :: ·)
  | _, _ => none

end

private theorem selectedEach?_eq (g : ForestGraph K) (selections : List Selection)
    (children : List Nat) :
    g.selectedEach? selections children =
      valueEach? (fun c s => g.selected? s c) children selections := by
  induction selections generalizing children with
  | nil => cases children <;> simp [selectedEach?, valueEach?]
  | cons s ss ih =>
    cases children with
    | nil => simp [selectedEach?, valueEach?]
    | cons c cs => simp [selectedEach?, valueEach?, ih]

/-! ### Trees of nodes -/

/-- The trees that a node stands for. -/
def treesOf (g : ForestGraph K) (i : Nat) : List (Tree K) :=
  ((g.forestAt? i).map Forest.trees).getD []

variable {g : ForestGraph K} {i : Nat} {n : ForestNode K}

theorem treesOf_eq {f : Forest K} (h : g.forestAt? i = some f) : g.treesOf i = f.trees := by
  rw [treesOf, h]
  rfl

private theorem map_trees_filterMap {numbers : List Nat}
    (h : ∀ c ∈ numbers, ∃ f, g.forestAt? c = some f) :
    (numbers.filterMap g.forestAt?).map Forest.trees = numbers.map g.treesOf := by
  induction numbers with
  | nil => rfl
  | cons c cs ih =>
    rw [List.forall_mem_cons] at h
    obtain ⟨⟨f, hf⟩, hcs⟩ := h
    rw [List.filterMap_cons_some hf, List.map_cons, List.map_cons, ih hcs, treesOf_eq hf]

theorem forestAt?_eq_some_of_node (hn : g.nodes[i]? = some n) :
    g.forestAt? i = some (.node n.label (n.alternatives.map (List.filterMap g.forestAt?))) := by
  rw [forestAt?_eq, hn]
  rfl

theorem treesOf_of_isLeaf (hn : g.nodes[i]? = some n) (h : n.isLeaf) :
    g.treesOf i = [.leaf n.label] := by
  rw [treesOf_eq (forestAt?_eq_some_of_node hn),
    Forest.trees_of_isLeaf (by rwa [isLeaf_unfolded hn])]
  rfl

/-- A node that is no leaf stands for the choices from the trees of the children, alternative by
alternative. -/
theorem treesOf_of_not_isLeaf (hn : g.nodes[i]? = some n) (h : ¬n.isLeaf) :
    g.treesOf i = n.alternatives.flatMap fun children =>
      (choices (children.map g.treesOf)).map (.node n.label) := by
  rw [treesOf_eq (forestAt?_eq_some_of_node hn),
    Forest.trees_node_of_not_isLeaf (by rwa [isLeaf_unfolded hn]), List.flatMap_map]
  refine List.flatMap_congr fun children hmem => ?_
  rw [map_trees_filterMap fun c hc => exists_forestAt?_of_mem_children (mem_children hn hmem hc)]

/-! ### Trees in order -/

/-- The trees of a node are given by selections, and are listed in their order. -/
theorem valuesInOrder_treesOf (hn : g.nodes[i]? = some n) :
    ValuesInOrder (g.selected? · i) Selection.Before (g.treesOf i) := by
  induction i using Nat.strongRecOn generalizing n with
  | ind i ih =>
    by_cases hleaf : n.isLeaf
    · rw [treesOf_of_isLeaf hn hleaf]
      refine ⟨[.leaf], List.pairwise_singleton _ _, fun s => ?_, ?_⟩
      · cases s <;> simp [selected?, hn, hleaf]
      · simp [selected?, hn, hleaf]
    · have heach : ∀ children ∈ n.alternatives,
          ValuesInOrder (valueEach? (fun c s => g.selected? s c) children)
            (List.Lex Selection.Before) (choices (children.map g.treesOf)) := fun children hmem =>
        valuesInOrder_choices fun c hc => by
          have hchild := mem_children hn hmem hc
          obtain ⟨m, hm⟩ := exists_child_of_mem_children hchild
          exact ih c (lt_of_mem_children hchild) hm
      rw [treesOf_of_not_isLeaf hn hleaf, ← List.map_flatMap]
      refine (valuesInOrder_flatMap heach).map (fun p => Selection.node p.1 p.2)
        (Tree.node n.label) ?_ ?_ ?_
      · intro p
        simp [selected?, hn, hleaf, selectedEach?_eq, Option.map_bind]
      · intro s hs
        cases s with
        | leaf => simp [selected?, hn, hleaf] at hs
        | node alternative below => exact ⟨(alternative, below), rfl⟩
      · rintro _ _ (⟨_, _, hlt⟩ | ⟨_, hlt⟩)
        · exact .alternative hlt _ _
        · exact .deeper _ hlt

/-- How the trees of a node are made from those of its children, and that they are listed in the
order of the selections that give them, once for each selection. -/
structure ListsTrees [DecidableEq K] (g : ForestGraph K) (i : Nat) (n : ForestNode K)
    (trees : List (Tree K)) : Prop where
  /-- There is a tree. -/
  ne_nil : trees ≠ []
  /-- A leaf stands for one tree, whatever alternatives it has. -/
  of_isLeaf : n.isLeaf → trees = [.leaf n.label]
  /-- Any other node stands for the trees over the lists that have one tree of each child:
  alternative by alternative, and for each in lexicographic order of the places of these trees. -/
  of_not_isLeaf : ¬n.isLeaf → ∃ picks : List Nat → List (List (Tree K)),
    (∀ children ∈ n.alternatives,
      ValuesInOrder (valueEach? (fun c (place : Nat) => (g.treesOf c)[place]?) children)
        (List.Lex (· < ·)) (picks children)) ∧
    trees = n.alternatives.flatMap fun children => (picks children).map (.node n.label)
  /-- The trees are those that selections give, in the order of the selections. -/
  inOrder : ValuesInOrder (g.selected? · i) Selection.Before trees
  /-- A tree is listed if it is selected. -/
  mem_iff (t : Tree K) : t ∈ trees ↔ ∃ s, g.selected? s i = some t
  /-- A tree is listed as often as it is selected. -/
  encard_eq (t : Tree K) : {s | g.selected? s i = some t}.encard = trees.count t
  /-- An alternative without children gives a node without children, if the node is no leaf. -/
  count_childless : ¬n.isLeaf → trees.count (.node n.label []) = n.alternatives.count []

/-- **The trees of a node are listed in order.** A node of a table, whatever is shared below it,
stands for the trees that are had by selecting an alternative at every occurrence of a node, in
lexicographic order and each as often as it is selected. -/
theorem trees_listed [DecidableEq K] (hn : g.nodes[i]? = some n) :
    ∃ f, g.forestAt? i = some f ∧ g.ListsTrees i n f.trees := by
  have hforest := forestAt?_eq_some_of_node hn
  refine ⟨_, hforest, ?_⟩
  rw [← treesOf_eq hforest]
  have hinOrder := valuesInOrder_treesOf hn
  refine ⟨?_, treesOf_of_isLeaf hn, fun hleaf => ?_, hinOrder, fun t => hinOrder.mem_iff,
    hinOrder.encard_eq_count Selection.not_before_self, fun hleaf => ?_⟩
  · rw [treesOf_eq hforest]
    exact Forest.trees_ne_nil _
  · exact ⟨fun children => choices (children.map g.treesOf), fun children _ =>
      valuesInOrder_choices fun c _ => valuesInOrder_getElem? _, treesOf_of_not_isLeaf hn hleaf⟩
  · have hinj : Function.Injective (Tree.node n.label) := fun _ _ heq => (Tree.node.inj heq).2
    rw [treesOf_of_not_isLeaf hn hleaf, ← List.map_flatMap, List.count_map_of_injective _ _ hinj,
      count_nil_flatMap_choices]

/-- A choice that occurs twice in two alternatives of a forest, which has another alternative
without children. -/
def sharedChoices : ForestGraph Char :=
  .ofNodes [⟨'a', [[]]⟩, ⟨'T', [[0], [0, 0]]⟩, ⟨'S', [[1, 1], [], [1, 1]]⟩]

/-- There are nine trees. The one that has `a` on the left and `aa` on the right is among them
twice: it is selected in both alternatives with two children. -/
theorem trees_listed_sharedChoices :
    sharedChoices.nodes[2]? = some ⟨'S', [[1, 1], [], [1, 1]]⟩ ∧
      ∃ f, sharedChoices.forestAt? 2 = some f ∧ f.trees.length = 9 ∧
        sharedChoices.ListsTrees 2 ⟨'S', [[1, 1], [], [1, 1]]⟩ f.trees ∧
        {s | sharedChoices.selected? s 2 = some
          (.node 'S' [.node 'T' [.leaf 'a'], .node 'T' [.leaf 'a', .leaf 'a']])}.encard = 2 := by
  have hn : sharedChoices.nodes[2]? = some ⟨'S', [[1, 1], [], [1, 1]]⟩ := by decide +kernel
  obtain ⟨f, hf, hlists⟩ := trees_listed hn
  have hlength : (sharedChoices.forestAt? 2).map (fun f => f.trees.length) = some 9 := by
    decide +kernel
  have hcount : (sharedChoices.forestAt? 2).map (fun f => f.trees.count
      (.node 'S' [.node 'T' [.leaf 'a'], .node 'T' [.leaf 'a', .leaf 'a']])) = some 2 := by
    decide +kernel
  rw [hf, Option.map_some, Option.some_inj] at hlength hcount
  refine ⟨hn, f, hf, hlength, hlists, ?_⟩
  rw [hlists.encard_eq, hcount]
  rfl

end ForestGraph

end ChartParsing
