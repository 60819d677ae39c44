import ChartParsing.Proofs.Chart.Derivations
import Mathlib.Data.List.Forall2
import Mathlib.Data.Set.Card

/-!
# Where nodes occur in a parse

A node occurs below a root over the leaves that it stands for. The children of a node that was built
for an item stand for the parts of the item, one behind the other. So a node occurs over the span of
its item, wherever it does, and a node is told by its label and by where it occurs.

## Main definitions

* `ForestGraph.Covers`, `SharedForests.Occurs`: how many leaves a node stands for, and over which
  leaves it occurs below the roots.

## Main results

* `Chart.Lists.covers_iff`, `Chart.Lists.exists_lists_child`: the leaves of a node and of its
  children.
* `Chart.exists_lists_of_occurs`: a node occurs over the span of its item.
* `Chart.mem_objects_iff`: the nodes below the roots are those that occur.
* `Chart.eq_iff_of_occurs`: equal occurrences are of one node.
-/

namespace ChartParsing

universe u v

variable {K : Type u} {V : Type v}

/-! ### Occurrences -/

/-- The label of a node. -/
def ForestGraph.label? (g : ForestGraph K) (m : Nat) : Option K :=
  g.nodes[m]?.map ForestNode.label

/-- The relation `g.Covers m n`: the node `m` stands for a tree with `n` leaves. -/
def ForestGraph.Covers (g : ForestGraph K) (m n : Nat) : Prop :=
  ∃ f, g.forestAt? m = some f ∧ ∃ t ∈ f.trees, t.frontier.length = n

namespace SharedForests

/-- The relation `fs.Occurs m s`: below a root the node `m` stands over the leaves in `s`, counted
from the first leaf of the root. -/
inductive Occurs (fs : SharedForests K) : Nat → Span → Prop where
  /-- A root stands over all leaves. -/
  | root {r width : Nat} (mem : r ∈ fs.roots) (covers : fs.graph.Covers r width) :
      Occurs fs r ⟨width, 0⟩
  /-- A child starts after the leaves of the children in front of it. -/
  | child {m i width : Nat} {s : Span} {n : ForestNode K} {front back widths : List Nat}
      (parent : Occurs fs m s) (node_eq : fs.graph.nodes[m]? = some n)
      (mem : front ++ i :: back ∈ n.alternatives)
      (front_covers : List.Forall₂ fs.graph.Covers front widths)
      (covers : fs.graph.Covers i width) : Occurs fs i ⟨width, s.start + widths.sum⟩

theorem Occurs.mem_objects {fs : SharedForests K} {m : Nat} {s : Span} (h : fs.Occurs m s) :
    m ∈ fs.objects := by
  induction h with
  | root mem _ => exact ⟨_, mem, .refl _⟩
  | child _ node_eq mem _ _ ih =>
    obtain ⟨r, hr, hreach⟩ := ih
    have hchild := ForestGraph.mem_children node_eq mem
      (List.mem_append_right _ List.mem_cons_self)
    exact ⟨r, hr, hreach.trans (.step hchild (.refl _))⟩

end SharedForests

/-! ### Nodes of items -/

/-- The children in an alternative are the nodes of the two items of a joint. -/
theorem BuiltForests.CopyOf.exists_joint_of_mem_alternatives {c : Chart K} {b : BuiltForests K}
    (h : CopyOf c b) {i m : Nat} {item : Item K} (hitem : c.item? i = some item)
    (hm : b.node? i = some m) {n : ForestNode K} (hn : b.graph.nodes[m]? = some n)
    {children : List Nat} (hmem : children ∈ n.alternatives) (hne : children ≠ []) :
    ∃ joint ∈ item.joints, ∃ l r, b.node? joint.left = some l ∧ b.node? joint.right = some r ∧
      children = [l, r] := by
  obtain ⟨item', hitem', hparts, hnode⟩ := h.node_eq i m hm
  cases hitem.symm.trans hitem'
  cases hn.symm.trans hnode
  obtain ⟨numbers, hnumbers, rfl⟩ := List.mem_map.1 hmem
  rw [Item.node] at hnumbers
  split at hnumbers
  · rw [List.mem_singleton.1 hnumbers] at hne
    exact absurd rfl hne
  · obtain ⟨joint, hjoint, rfl⟩ := List.mem_map.1 hnumbers
    obtain ⟨l, hl⟩ := Option.isSome_iff_exists.1 (hparts _ (Item.left_mem_children hjoint))
    obtain ⟨r, hr⟩ := Option.isSome_iff_exists.1 (hparts _ (Item.right_mem_children hjoint))
    exact ⟨joint, hjoint, l, r, hl, hr, by simp [hl, hr]⟩

namespace Chart

open BuiltForests

variable [DecidableEq K] [DecidableEq V] {g : Grammar K V} {input : List V} {b : BuiltForests K}

/-! ### Where nodes occur -/

/-- The trees of an item have a leaf for each value of its span. -/
theorem Lists.covers_iff {s : Span} {key : K} {i m n : Nat}
    (h : (ofInput (.ofGrammar g) input).Lists s key i)
    (hb : CopyOf (ofInput (.ofGrammar g) input) b) (hm : b.node? i = some m) :
    b.graph.Covers m n ↔ n = s.length := by
  obtain ⟨f, hforest, henum⟩ := h.exists_enumerates
  rw [← hb.forestAt?_eq (partsBelow_ofInput g input) hm] at hforest
  have hlength : ∀ t ∈ f.trees, t.frontier.length = s.length := fun t ht => by
    rw [((henum.mem_trees t).1 ht).2.length_frontier, Span.length_values h.within.stop_le]
  constructor
  · rintro ⟨f', hf', t, ht, rfl⟩
    cases hforest.symm.trans hf'
    exact hlength t ht
  · rintro rfl
    obtain ⟨t, ht⟩ := Grammar.derives_iff_exists_yields.1
      ((exists_lists_iff_derives h.within).1 ⟨i, h⟩)
    exact ⟨f, hforest, t, (henum.mem_trees t).2 ht, hlength t ((henum.mem_trees t).2 ht)⟩

/-- A child stands over a part of the span of its parent, which starts after the children in front
of it. -/
theorem Lists.exists_lists_child {s : Span} {key : K} {i m child : Nat}
    (h : (ofInput (.ofGrammar g) input).Lists s key i)
    (hb : CopyOf (ofInput (.ofGrammar g) input) b) (hm : b.node? i = some m) {n : ForestNode K}
    (hn : b.graph.nodes[m]? = some n) {front back : List Nat}
    (hmem : front ++ child :: back ∈ n.alternatives) :
    ∃ lengths, (∀ widths, List.Forall₂ b.graph.Covers front widths ↔ widths = lengths) ∧
      ∃ j key' length, b.node? j = some child ∧
        (ofInput (.ofGrammar g) input).Lists ⟨length, s.start + lengths.sum⟩ key' j := by
  obtain ⟨joints, hitem, -⟩ := h.exists_item
  obtain ⟨joint, hjoint, l, r, hl, hr, heq⟩ :=
    hb.exists_joint_of_mem_alternatives hitem hm hn hmem (by simp)
  obtain ⟨k, -, -, rule, -, -, hleft, hright⟩ := (h.mem_joints hitem).1 hjoint
  rcases front with _ | ⟨first, front⟩
  · -- The child is the left part.
    obtain ⟨rfl, -⟩ := List.cons.inj heq
    exact ⟨[], by simp, joint.left, rule.left, k, hl, hleft⟩
  · -- The child is the right part, behind the left one.
    obtain ⟨rfl, hrest⟩ := List.cons.inj heq
    obtain ⟨rfl, rfl, -⟩ : front = [] ∧ child = r ∧ back = [] := by
      simpa [List.append_eq_cons_iff] using hrest
    refine ⟨[k], fun widths => ?_, joint.right, rule.right, s.length - k, hr, by simpa using hright⟩
    rw [List.forall₂_cons_left_iff]
    simp [hleft.covers_iff hb hl]

section Occurrences

variable {fs : SharedForests K}
  (hroots : fs.roots.map some =
    ((Parser.ofGrammar g).roots (ofInput (.ofGrammar g) input)).map b.node?)

include hroots

theorem exists_lists_of_mem_roots {r : Nat} (hr : r ∈ fs.roots) :
    ∃ i key, b.node? i = some r ∧
      (ofInput (.ofGrammar g) input).Lists ⟨input.length, 0⟩ key i := by
  obtain ⟨i, hi, hnode⟩ := List.mem_map.1 (hroots ▸ List.mem_map_of_mem hr)
  obtain ⟨key, -, hlists⟩ := Parser.mem_roots.1 hi
  exact ⟨i, key, hnode, hlists⟩

variable (hb : CopyOf (ofInput (.ofGrammar g) input) b) (hgraph : fs.graph = b.graph)

include hb hgraph

/-- A node occurs over the span of its item. -/
theorem exists_lists_of_occurs {m : Nat} {s : Span} (h : fs.Occurs m s) :
    ∃ i key, b.node? i = some m ∧ (ofInput (.ofGrammar g) input).Lists s key i := by
  induction h with
  | root mem covers =>
    obtain ⟨i, key, hnode, hlists⟩ := exists_lists_of_mem_roots hroots mem
    rw [hgraph, hlists.covers_iff hb hnode] at covers
    exact ⟨i, key, hnode, covers ▸ hlists⟩
  | child _ node_eq mem front_covers covers ih =>
    obtain ⟨i, key, hnode, hlists⟩ := ih
    rw [hgraph] at node_eq front_covers covers
    obtain ⟨lengths, hlengths, j, key', length, hchild, hpart⟩ :=
      hlists.exists_lists_child hb hnode node_eq mem
    rw [hpart.covers_iff hb hchild] at covers
    rw [hlengths] at front_covers
    exact ⟨j, key', hchild, covers ▸ front_covers ▸ hpart⟩

/-- What can be reached from a node that occurs occurs. -/
theorem exists_occurs_of_reaches {m m' : Nat} (hreach : Reaches fs.graph.children m m') {s : Span}
    (h : fs.Occurs m s) : ∃ s', fs.Occurs m' s' := by
  induction hreach generalizing s with
  | refl _ => exact ⟨s, h⟩
  | @step m j _ edge _ ih =>
    obtain ⟨i, key, hnode, hlists⟩ := exists_lists_of_occurs hroots hb hgraph h
    obtain ⟨_, -, -, hn⟩ := hb.node_eq i m hnode
    rw [ForestGraph.children, hgraph, hn] at edge
    obtain ⟨children, hmem, hj⟩ := List.mem_flatten.1 edge
    obtain ⟨front, back, rfl⟩ := List.append_of_mem hj
    obtain ⟨lengths, hlengths, j', key', length, hchild, hpart⟩ :=
      hlists.exists_lists_child hb hnode hn hmem
    have hfront : List.Forall₂ fs.graph.Covers front lengths := hgraph ▸ (hlengths lengths).2 rfl
    have hcovers : fs.graph.Covers j length := hgraph ▸ (hpart.covers_iff hb hchild).2 rfl
    exact ih (.child h (hgraph ▸ hn) hmem hfront hcovers)

/-- The nodes that can be reached from the roots are those that occur. -/
theorem mem_objects_iff {m : Nat} : m ∈ fs.objects ↔ ∃ s, fs.Occurs m s := by
  refine ⟨fun ⟨r, hr, hreach⟩ => ?_, fun ⟨_, h⟩ => h.mem_objects⟩
  obtain ⟨i, key, hnode, hlists⟩ := exists_lists_of_mem_roots hroots hr
  have hcovers : fs.graph.Covers r input.length := hgraph ▸ (hlists.covers_iff hb hnode).2 rfl
  exact exists_occurs_of_reaches hroots hb hgraph hreach (.root hr hcovers)

theorem exists_item_of_occurs {m : Nat} {s : Span} (h : fs.Occurs m s) :
    ∃ i item, b.node? i = some m ∧ (ofInput (.ofGrammar g) input).item? i = some item ∧
      fs.graph.label? m = some item.key ∧ item.span = s := by
  obtain ⟨i, key, hnode, hlists⟩ := exists_lists_of_occurs hroots hb hgraph h
  obtain ⟨joints, hitem, -⟩ := hlists.exists_item
  obtain ⟨item, hitem', -, hn⟩ := hb.node_eq i m hnode
  cases hitem.symm.trans hitem'
  refine ⟨i, _, hnode, hitem, ?_, rfl⟩
  rw [ForestGraph.label?, hgraph, hn]
  rfl

/-- A node is told by its label and by where it occurs. -/
theorem eq_iff_of_occurs {m m' : Nat} {s s' : Span} (h : fs.Occurs m s) (h' : fs.Occurs m' s') :
    m = m' ↔ fs.graph.label? m = fs.graph.label? m' ∧ s = s' := by
  obtain ⟨i, item, hnode, hitem, hlabel, rfl⟩ := exists_item_of_occurs hroots hb hgraph h
  obtain ⟨i', item', hnode', hitem', hlabel', rfl⟩ := exists_item_of_occurs hroots hb hgraph h'
  constructor
  · rintro rfl
    cases hb.node?_inj i i' m hnode hnode'
    cases hitem.symm.trans hitem'
    exact ⟨rfl, rfl⟩
  · rintro ⟨heq, hspan⟩
    rw [hlabel, hlabel', Option.some_inj] at heq
    have hlists := lists_of_item? hitem
    rw [hspan, heq] at hlists
    cases hlists.number_eq (lists_of_item? hitem')
    exact Option.some_inj.1 (hnode.symm.trans hnode')

end Occurrences

end Chart

end ChartParsing
