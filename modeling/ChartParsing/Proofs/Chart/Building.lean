import ChartParsing.Chart.Forests
import ChartParsing.Proofs.Forest.Unfolding
import ChartParsing.Proofs.PostOrder
import Mathlib.Data.List.Induction

/-!
# Building the forests of a chart

A chart is itself a table of nodes: an item with its joints is a node whose children are named by
their numbers. What the forests of items should be is read off this table. Building forests on
demand copies parts of it into another table, node by node; a copy refers to the copies of the
children, so it stands for the same forest. A demand succeeds whenever the parts of an item have
smaller numbers, whatever was built before, and it replaces nothing.

## Main definitions

* `Chart.PartsBelow`: the parts of an item have smaller numbers.
* `Chart.graph`: the items of a chart as nodes.
* `BuiltForests.CopyOf`: the built forests are copies of nodes of a chart.
* `BuiltForests.Extends`: later forests leave earlier ones as they are.
* `Chart.Demands`: demands one after another.

## Main results

* `BuiltForests.CopyOf.forestAt?_eq`: a built forest is the forest of its item.
* `Chart.PartsBelow.lawful`: items can be visited after their parts.
* `Chart.exists_demand?_eq_some`, `Chart.exists_demands`: demands succeed, and what they add.
* `Chart.toForests_forestsOf`: the forests of given items.
-/

namespace ChartParsing

universe u

variable {K : Type u}

/-! ### Items as nodes -/

/-- An item as a node: each joint is an alternative, whose children are the two parts. -/
def Item.node (item : Item K) : ForestNode K :=
  ⟨item.key, if item.isTerminal then [[]] else item.joints.map fun j => [j.left, j.right]⟩

theorem Item.children_node (item : Item K) :
    item.node.children = item.joints.flatMap fun j => [j.left, j.right] := by
  rw [ForestNode.children, node, isTerminal]
  cases item.joints with
  | nil => rfl
  | cons j joints => simp [List.flatMap_def]

theorem Item.left_mem_children {item : Item K} {joint : Joint} (h : joint ∈ item.joints) :
    joint.left ∈ item.node.children :=
  item.children_node ▸ List.mem_flatMap.2 ⟨joint, h, List.mem_cons_self⟩

theorem Item.right_mem_children {item : Item K} {joint : Joint} (h : joint ∈ item.joints) :
    joint.right ∈ item.node.children :=
  item.children_node ▸ List.mem_flatMap.2
    ⟨joint, h, List.mem_cons_of_mem _ List.mem_cons_self⟩

namespace Chart

variable {c : Chart K}

/-- The parts of every item have smaller numbers than the item. -/
def PartsBelow (c : Chart K) : Prop :=
  ∀ i, ∀ j ∈ c.parts i, j < i

/-- The items of a chart as nodes, with the same numbers. -/
def graph (c : Chart K) : ForestGraph K :=
  .ofNodes (c.items.toList.map Item.node)

theorem parts_eq_children {i : Nat} {item : Item K} (h : c.item? i = some item) :
    c.parts i = item.node.children := by
  rw [parts, h, item.children_node]
  rfl

theorem PartsBelow.getElem?_nodes_graph (hc : c.PartsBelow) (i : Nat) :
    c.graph.nodes[i]? = (c.item? i).map Item.node := by
  have hbelow : ∀ i (n : ForestNode K), (c.items.toList.map Item.node)[i]? = some n →
      ∀ j ∈ n.children, j < i := by
    intro i n hn j hj
    rw [List.getElem?_map, Array.getElem?_toList] at hn
    obtain ⟨item, hitem, rfl⟩ := Option.map_eq_some_iff.1 hn
    exact hc i j (parts_eq_children hitem ▸ hj)
  rw [graph, ← Array.getElem?_toList, ForestGraph.nodes_ofNodes hbelow, List.getElem?_map,
    Array.getElem?_toList, item?]

/-- The forest of an item has its key and, for each joint, the forests of the two parts. -/
theorem PartsBelow.forestAt?_graph (hc : c.PartsBelow) {i : Nat} {item : Item K}
    (h : c.item? i = some item) :
    c.graph.forestAt? i =
      some (.node item.key (item.node.alternatives.map (List.filterMap c.graph.forestAt?))) := by
  rw [ForestGraph.forestAt?_eq, hc.getElem?_nodes_graph, h]
  rfl

theorem PartsBelow.forestAt?_graph_of_terminal (hc : c.PartsBelow) {i : Nat} {item : Item K}
    (h : c.item? i = some item) (hjoints : item.joints = []) :
    c.graph.forestAt? i = some (.node item.key [[]]) := by
  rw [hc.forestAt?_graph h, Item.node, Item.isTerminal, hjoints]
  rfl

theorem PartsBelow.lt_size_of_forestAt? (hc : c.PartsBelow) {i : Nat} {f : Forest K}
    (h : c.graph.forestAt? i = some f) : i < c.items.size := by
  obtain ⟨_, hnode, -⟩ := ForestGraph.exists_node_of_forestAt?_eq_some h
  rw [hc.getElem?_nodes_graph] at hnode
  obtain ⟨_, hitem, -⟩ := Option.map_eq_some_iff.1 hnode
  exact (Array.getElem?_eq_some_iff.1 hitem).1

/-- The forests of the two items of a joint. -/
def alternativeOf (c : Chart K) (joint : Joint) : List (Forest K) :=
  [joint.left, joint.right].filterMap c.graph.forestAt?

theorem PartsBelow.forestAt?_graph_of_joints (hc : c.PartsBelow) {i : Nat} {item : Item K}
    (h : c.item? i = some item) (hjoints : item.joints ≠ []) :
    c.graph.forestAt? i = some (.node item.key (item.joints.map c.alternativeOf)) := by
  rw [hc.forestAt?_graph h, Item.node, Item.isTerminal, if_neg (by simpa using hjoints),
    List.map_map]
  rfl

/-- Both items of a joint have forests. -/
theorem PartsBelow.exists_alternativeOf_eq (hc : c.PartsBelow) {i : Nat} {item : Item K}
    (h : c.item? i = some item) {joint : Joint} (hjoint : joint ∈ item.joints) :
    ∃ l r, c.alternativeOf joint = [l, r] := by
  have hpart : ∀ j ∈ item.node.children, ∃ f, c.graph.forestAt? j = some f := by
    intro j hj
    have hlt := hc i j (parts_eq_children h ▸ hj)
    have hsize := (Array.getElem?_eq_some_iff.1 h).1
    exact ⟨_, hc.forestAt?_graph (Array.getElem?_eq_getElem (Nat.lt_trans hlt hsize))⟩
  obtain ⟨l, hl⟩ := hpart _ (Item.left_mem_children hjoint)
  obtain ⟨r, hr⟩ := hpart _ (Item.right_mem_children hjoint)
  exact ⟨l, r, by simp [alternativeOf, hl, hr]⟩

theorem PartsBelow.not_isLeaf_of_joints (hc : c.PartsBelow) {i : Nat} {item : Item K}
    (h : c.item? i = some item) (hjoints : item.joints ≠ []) :
    ¬(Forest.node item.key (item.joints.map c.alternativeOf)).isLeaf := by
  obtain ⟨joint, hjoint⟩ := List.exists_mem_of_ne_nil _ hjoints
  obtain ⟨l, r, heq⟩ := hc.exists_alternativeOf_eq h hjoint
  intro hleaf
  have hempty := List.all_eq_true.1 hleaf _ (List.mem_map_of_mem hjoint)
  rw [heq] at hempty
  cases hempty

end Chart

namespace ForestNode

private theorem renumber_congr {n : ForestNode K} {f g : Nat → Option Nat}
    (h : ∀ c ∈ n.children, f c = g c) : n.renumber f = n.renumber g := by
  rw [renumber, renumber]
  congr 1
  exact List.map_congr_left fun children hmem => List.filterMap_congr fun c hc =>
    h c (List.mem_flatten.2 ⟨children, hmem, hc⟩)

private theorem exists_of_mem_children_renumber {n : ForestNode K} {f : Nat → Option Nat} {m : Nat}
    (h : m ∈ (n.renumber f).children) : ∃ c ∈ n.children, f c = some m := by
  obtain ⟨_, hl, hm⟩ := List.mem_flatten.1 h
  obtain ⟨children, hmem, rfl⟩ := List.mem_map.1 hl
  obtain ⟨c, hc, hfc⟩ := List.mem_filterMap.1 hm
  exact ⟨c, List.mem_flatten.2 ⟨children, hmem, hc⟩, hfc⟩

end ForestNode

namespace BuiltForests

variable {b b' b'' : BuiltForests K} {c : Chart K}

/-! ### Adding one forest -/

theorem node?_empty (items i : Nat) : (empty items : BuiltForests K).node? i = none := by
  rw [node?, empty, join_getElem?_replicate]

theorem node?_add {i : Nat} (hi : i < b.nodeOf.size) (n : ForestNode K) (j : Nat) :
    (b.add i n).node? j = if i = j then some b.graph.size else b.node? j := by
  rw [node?, node?, add, join_getElem?_setIfInBounds hi]

private theorem nodeFor?_eq {item : Item K}
    (h : ∀ j ∈ item.node.children, (b.node? j).isSome) :
    b.nodeFor? item = some (item.node.renumber b.node?) := by
  have hjoint : ∀ joint ∈ item.joints,
      b.childrenFor? joint = some ([joint.left, joint.right].filterMap b.node?) := by
    intro joint hjoint
    obtain ⟨l, hl⟩ := Option.isSome_iff_exists.1 (h joint.left (Item.left_mem_children hjoint))
    obtain ⟨r, hr⟩ := Option.isSome_iff_exists.1 (h joint.right (Item.right_mem_children hjoint))
    simp [childrenFor?, hl, hr]
  rw [nodeFor?, ForestNode.renumber, Item.node]
  split
  · simp
  · rw [mapM_eq_some_map hjoint, List.map_map]
    rfl

/-! ### Copies of the nodes of a chart -/

/-- The later forests `b'` hold the forests `b` as they are. -/
structure Extends (b b' : BuiltForests K) : Prop where
  /-- An item keeps the node of its forest. -/
  node?_eq : ∀ i m, b.node? i = some m → b'.node? i = some m
  /-- The nodes stay as they are. -/
  nodes_eq : ∀ m < b.graph.size, b'.graph.nodes[m]? = b.graph.nodes[m]?

theorem Extends.refl (b : BuiltForests K) : b.Extends b := ⟨fun _ _ h => h, fun _ _ => rfl⟩

theorem Extends.size_le (h : b.Extends b') : b.graph.size ≤ b'.graph.size := by
  by_contra hlt
  have hnode := h.nodes_eq b'.graph.size (by omega)
  rw [ForestGraph.size, Array.getElem?_eq_none (Nat.le_refl _)] at hnode
  exact hlt (Array.getElem?_eq_none_iff.1 hnode.symm)

theorem Extends.trans (h : b.Extends b') (h' : b'.Extends b'') : b.Extends b'' where
  node?_eq i m hm := h'.node?_eq i m (h.node?_eq i m hm)
  nodes_eq m hm := (h'.nodes_eq m (Nat.lt_of_lt_of_le hm h.size_le)).trans (h.nodes_eq m hm)

/-- The built forests `b` are copies of nodes of the chart `c`, complete with all below them. -/
structure CopyOf (c : Chart K) (b : BuiltForests K) : Prop where
  /-- There is a place for every item. -/
  size_nodeOf : b.nodeOf.size = c.items.size
  /-- Different items have different nodes. -/
  node?_inj : ∀ i j m, b.node? i = some m → b.node? j = some m → i = j
  /-- The node of a built item is the item's node, with the nodes of the parts as children. -/
  node_eq : ∀ i m, b.node? i = some m → ∃ item, c.item? i = some item ∧
    (∀ j ∈ item.node.children, (b.node? j).isSome) ∧
    b.graph.nodes[m]? = some (item.node.renumber b.node?)

theorem CopyOf.empty (c : Chart K) : CopyOf c (.empty c.items.size) where
  size_nodeOf := Array.size_replicate
  node?_inj i j m h := by rw [node?_empty] at h; cases h
  node_eq i m h := by rw [node?_empty] at h; cases h

theorem CopyOf.lt_size (h : CopyOf c b) {i m : Nat} (hm : b.node? i = some m) :
    m < b.graph.size := by
  obtain ⟨_, -, -, hnode⟩ := h.node_eq i m hm
  exact (Array.getElem?_eq_some_iff.1 hnode).1

/-- A built forest is the forest of its item. -/
theorem CopyOf.forestAt?_eq (h : CopyOf c b) (hc : c.PartsBelow) {i m : Nat}
    (hm : b.node? i = some m) : b.graph.forestAt? m = c.graph.forestAt? i := by
  induction i using Nat.strongRecOn generalizing m with
  | ind i ih =>
    obtain ⟨item, hitem, hparts, hnode⟩ := h.node_eq i m hm
    rw [ForestGraph.forestAt?_eq, hnode, hc.forestAt?_graph hitem, Option.map_some,
      ForestNode.renumber, List.map_map]
    congr 2
    refine List.map_congr_left fun children hmem => ?_
    rw [Function.comp_apply, List.filterMap_filterMap]
    refine List.filterMap_congr fun j hj => ?_
    have hj' : j ∈ item.node.children := List.mem_flatten.2 ⟨children, hmem, hj⟩
    obtain ⟨n, hn⟩ := Option.isSome_iff_exists.1 (hparts j hj')
    rw [hn, Option.bind_some]
    exact ih j (hc i j (Chart.parts_eq_children hitem ▸ hj')) hn

theorem Extends.add {i : Nat} (hi : i < b.nodeOf.size) (hnone : b.node? i = none)
    (n : ForestNode K) : b.Extends (b.add i n) where
  node?_eq j m hm := by
    have hne : i ≠ j := fun e => by rw [← e, hnone] at hm; cases hm
    rw [node?_add hi, if_neg hne, hm]
  nodes_eq _ hm := ForestGraph.getElem?_nodes_push_of_lt hm n

/-- The forest of an item is added as a copy, if its parts are there. -/
theorem CopyOf.add (h : CopyOf c b) {i : Nat} {item : Item K} (hitem : c.item? i = some item)
    (hnone : b.node? i = none) (hparts : ∀ j ∈ item.node.children, (b.node? j).isSome) :
    CopyOf c (b.add i (item.node.renumber b.node?)) where
  size_nodeOf := Array.size_setIfInBounds.trans h.size_nodeOf
  node?_inj j k m hj hk := by
    have hi : i < b.nodeOf.size := h.size_nodeOf ▸ (Array.getElem?_eq_some_iff.1 hitem).1
    -- The new node has the next number, which no other item has.
    rw [node?_add hi] at hj hk
    split at hj <;> split at hk
    · next hij hik => exact hij.symm.trans hik
    · cases hj
      exact absurd (h.lt_size hk) (Nat.lt_irrefl _)
    · cases hk
      exact absurd (h.lt_size hj) (Nat.lt_irrefl _)
    · exact h.node?_inj j k m hj hk
  node_eq j m hm := by
    have hi : i < b.nodeOf.size := h.size_nodeOf ▸ (Array.getElem?_eq_some_iff.1 hitem).1
    have hext := Extends.add hi hnone (item.node.renumber b.node?)
    have hkeep : ∀ k, (b.node? k).isSome →
        (b.add i (item.node.renumber b.node?)).node? k = b.node? k := fun k hk => by
      obtain ⟨n, hn⟩ := Option.isSome_iff_exists.1 hk
      rw [hext.node?_eq k n hn, hn]
    have hcopy : ∀ other : Item K, (∀ k ∈ other.node.children, (b.node? k).isSome) →
        (∀ k ∈ other.node.children, ((b.add i (item.node.renumber b.node?)).node? k).isSome) ∧
          other.node.renumber b.node? =
            other.node.renumber (b.add i (item.node.renumber b.node?)).node? := fun other hother =>
      ⟨fun k hk => by rw [hkeep k (hother k hk)]; exact hother k hk,
        ForestNode.renumber_congr fun k hk => (hkeep k (hother k hk)).symm⟩
    rw [node?_add hi] at hm
    split at hm
    · next heq =>
      subst heq
      cases hm
      have hlt : ∀ n ∈ (item.node.renumber b.node?).children, n < b.graph.size := fun n hn => by
        obtain ⟨k, -, hk⟩ := ForestNode.exists_of_mem_children_renumber hn
        exact h.lt_size hk
      refine ⟨item, hitem, (hcopy item hparts).1, ?_⟩
      rw [← (hcopy item hparts).2]
      exact ForestGraph.getElem?_nodes_push_size hlt
    · obtain ⟨other, hother, hparts', hnode⟩ := h.node_eq j m hm
      refine ⟨other, hother, (hcopy other hparts').1, ?_⟩
      rw [← (hcopy other hparts').2, ← hnode]
      exact hext.nodes_eq m (h.lt_size hm)

end BuiltForests

namespace Chart

open BuiltForests

variable {c : Chart K} {b : BuiltForests K}

/-- The forests `b'` are those of `b` and those of the items in `more`, as copies. -/
abbrev Adds (c : Chart K) (b b' : BuiltForests K) (more : Nat → Prop) : Prop :=
  c.builder.Visited (CopyOf c) Extends b b' more

/-! ### Building one item -/

/-- The forest of an item is built if the parts of the item have theirs. -/
theorem exists_build?_eq_some (h : CopyOf c b) {i : Nat} (hi : i < c.items.size)
    (hnone : b.node? i = none) (hparts : ∀ j ∈ c.parts i, (b.node? j).isSome) :
    ∃ b', c.build? b i = some b' ∧ c.Adds b b' (· = i) := by
  have hitem : c.item? i = some c.items[i] := Array.getElem?_eq_getElem hi
  have hi' : i < b.nodeOf.size := h.size_nodeOf ▸ hi
  rw [parts_eq_children hitem] at hparts
  refine ⟨b.add i (c.items[i].node.renumber b.node?), ?_, h.add hitem hnone hparts,
    .add hi' hnone _, fun j => ?_⟩
  · simp [build?, add?, hitem, nodeFor?_eq hparts, hnone]
  · simp only [builder, node?_add hi']
    by_cases heq : i = j
    · simp [heq]
    · simp [heq, Ne.symm heq]

/-- Items can be visited after their parts. -/
theorem PartsBelow.lawful (hc : c.PartsBelow) :
    c.builder.Lawful c.items.size (CopyOf c) Extends where
  below_lt := hc
  refl := .refl
  trans := .trans
  isDone_below {b i} h hi j hj := by
    obtain ⟨m, hm⟩ := Option.isSome_iff_exists.1 hi
    obtain ⟨item, hitem, hparts, -⟩ := h.node_eq i m hm
    exact hparts j (parts_eq_children hitem ▸ hj)
  exists_visit? h hi hnone hparts :=
    exists_build?_eq_some h hi (Option.not_isSome_iff_eq_none.1 hnone) hparts

/-! ### Demands -/

/-- A demand succeeds: it builds the forests of the item and of all items below it. -/
theorem exists_demand?_eq_some (hc : c.PartsBelow) (h : CopyOf c b) {i : Nat}
    (hi : i < c.items.size) :
    ∃ b' m, c.demand? b i = some (b', m) ∧ b'.node? i = some m ∧
      c.Adds b b' (Reaches c.parts i) := by
  obtain ⟨b', hrun, hadds⟩ := hc.lawful.exists_visitFrom?_eq_some hi h
  obtain ⟨m, hm⟩ := Option.isSome_iff_exists.1 ((hadds.isDone_iff i).2 (.inr (.refl i)))
  refine ⟨b', m, ?_, hm, hadds⟩
  rw [demand?, hrun, Option.bind_some, hm]
  rfl

/-- The relation `c.Demands b numbers b' roots`: where the forests `b` have been built, the demands
for `numbers` succeed one after another; they leave the forests `b'` and give the nodes `roots`. -/
inductive Demands (c : Chart K) (b : BuiltForests K) :
    List Nat → BuiltForests K → List Nat → Prop where
  /-- No demands. -/
  | nil : Demands c b [] b []
  /-- Another demand after some demands. -/
  | concat {numbers roots : List Nat} {b' b'' : BuiltForests K} {i m : Nat}
      (earlier : Demands c b numbers b' roots) (demand : c.demand? b' i = some (b'', m)) :
      Demands c b (numbers ++ [i]) b'' (roots ++ [m])

/-- Demands one after another succeed: they build the forests of the items and of all items below
them, and give the nodes of the items. -/
theorem exists_demands (hc : c.PartsBelow) (h : CopyOf c b) {numbers : List Nat}
    (hlt : ∀ i ∈ numbers, i < c.items.size) :
    ∃ b' roots, c.Demands b numbers b' roots ∧ roots.map some = numbers.map b'.node? ∧
      c.Adds b b' fun j => ∃ i ∈ numbers, Reaches c.parts i j := by
  induction numbers using List.reverseRecOn with
  | nil => exact ⟨b, [], .nil, rfl, hc.lawful.visited_refl h (by simp)⟩
  | append_singleton numbers i ih =>
    rw [List.forall_mem_append, List.forall_mem_singleton] at hlt
    obtain ⟨b', roots, hdemands, hroots, hadds⟩ := ih hlt.1
    obtain ⟨b'', m, hdemand, hm, hadds'⟩ := exists_demand?_eq_some hc hadds.valid hlt.2
    -- The nodes that were given before are still there.
    have hkept : numbers.map b'.node? = numbers.map b''.node? := by
      refine List.map_congr_left fun j hj => ?_
      obtain ⟨n, hn⟩ := Option.isSome_iff_exists.1
        ((hadds.isDone_iff j).2 (.inr ⟨j, hj, .refl j⟩))
      rw [hn, hadds'.kept.node?_eq j n hn]
    refine ⟨b'', roots ++ [m], hdemands.concat hdemand, ?_,
      (hc.lawful.visited_trans hadds hadds').congr fun j _ => by
        simp [or_and_right, exists_or]⟩
    rw [List.map_append, List.map_append, hroots, hkept, List.map_singleton, List.map_singleton,
      hm]

theorem Demands.demandEach_eq {numbers roots : List Nat} {b' : BuiltForests K}
    (h : c.Demands b numbers b' roots) : c.demandEach b numbers = (b', roots) := by
  induction h with
  | nil => rfl
  | concat _ demand ih =>
    rw [demandEach] at ih ⊢
    rw [List.foldl_append, ih]
    simp [demand]

/-- The forests of items are what the items stand for. -/
theorem toForests_forestsOf (hc : c.PartsBelow) {numbers : List Nat}
    (hlt : ∀ i ∈ numbers, i < c.items.size) :
    (c.forestsOf numbers).toForests = numbers.filterMap c.graph.forestAt? := by
  obtain ⟨b', roots, hdemands, hroots, hadds⟩ := exists_demands hc (CopyOf.empty c) hlt
  have hnode : ∀ i ∈ numbers,
      (b'.node? i).bind b'.graph.forestAt? = c.graph.forestAt? i := fun i hi => by
    obtain ⟨m, hm⟩ := Option.isSome_iff_exists.1
      ((hadds.isDone_iff i).2 (.inr ⟨i, hi, .refl i⟩))
    rw [hm, Option.bind_some, hadds.valid.forestAt?_eq hc hm]
  calc (c.forestsOf numbers).toForests
      = roots.filterMap b'.graph.forestAt? := by
        rw [forestsOf, hdemands.demandEach_eq]
        exact SharedForests.toForests_ofRoots b'.graph roots
    _ = (roots.map some).filterMap fun r => r.bind b'.graph.forestAt? := by
        rw [List.filterMap_map]
        rfl
    _ = numbers.filterMap fun i => (b'.node? i).bind b'.graph.forestAt? := by
        rw [hroots, List.filterMap_map]
        rfl
    _ = numbers.filterMap c.graph.forestAt? := List.filterMap_congr hnode

end Chart

end ChartParsing
