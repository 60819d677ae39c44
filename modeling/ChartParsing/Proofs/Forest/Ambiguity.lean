import ChartParsing.Proofs.Forest.Ways
import ChartParsing.Proofs.Splice.Reordering
import Mathlib.Algebra.BigOperators.Group.List.Lemmas
import Mathlib.Algebra.Group.Nat.Units

/-!
# Ambiguity is more than one way

There is more than one way through a forest if it has more than one alternative, and this is not
lost further up: there is a way through every other part, so sums and products only grow, and a
number of ways that cannot be held is not taken for one. Hence the ways of a census are one if and
only if nothing below the node is ambiguous. The forests of a parse have as many trees as there are
ways through them.

## Main definitions

* `Forest.Unambiguous`: no part of a forest has more than one alternative.

## Main results

* `Forest.wayCount_eq_one_iff`: there is one way through a forest if it is unambiguous, and only
  then.
* `ForestGraph.unambiguous_iff`: unambiguous forests in terms of the nodes below.
* `ways_eq_one_iff`: the same for the censuses of nodes and for the forests of a parse.
-/

namespace ChartParsing

universe u v w

/-! ### Unambiguous forests -/

variable {L : Type u}

/-- Neither the forest nor any part of it has a choice of alternatives. -/
inductive Forest.Unambiguous : Forest L → Prop where
  /-- There is at most one alternative. -/
  | node {label : L} {alternatives : List (List (Forest L))} (single : alternatives.length ≤ 1)
      (each : ∀ children ∈ alternatives, ∀ child ∈ children, Unambiguous child) :
      Unambiguous (.node label alternatives)

namespace Forest

theorem unambiguous_node_iff {label : L} {alternatives : List (List (Forest L))} :
    (node label alternatives).Unambiguous ↔ alternatives.length ≤ 1 ∧
      ∀ children ∈ alternatives, ∀ child ∈ children, child.Unambiguous := by
  constructor
  · rintro ⟨single, each⟩
    exact ⟨single, each⟩
  · rintro ⟨single, each⟩
    exact .node single each

private theorem prod_wayCount_eq_one_iff {children : List (Forest L)} :
    (children.map wayCount).prod = 1 ↔ ∀ child ∈ children, child.wayCount = 1 := by
  rw [← Nat.isUnit_iff, List.prod_isUnit_iff, List.forall_mem_map]
  simp only [Nat.isUnit_iff]

/-- There is one way through a forest if it is unambiguous, and only then. -/
theorem wayCount_eq_one_iff (f : Forest L) : f.wayCount = 1 ↔ f.Unambiguous := by
  induction f using forall_of_children with
  | step label alternatives ih =>
    rw [wayCount_node, unambiguous_node_iff]
    match alternatives, ih with
    | [], _ => simp
    | [children], ih =>
      simp only [List.isEmpty_cons, Bool.false_eq_true, if_false, List.map_cons, List.map_nil,
        List.sum_singleton, prod_wayCount_eq_one_iff, List.length_singleton, Nat.le_refl, true_and,
        List.forall_mem_singleton]
      exact forall₂_congr (ih children List.mem_cons_self)
    | first :: second :: rest, _ =>
      -- Two alternatives with a way through each: no sum of one, whatever the others add.
      have hfirst : 0 < (first.map wayCount).prod :=
        prod_wayCount_pos fun child _ => child.wayCount_pos
      have hsecond : 0 < (second.map wayCount).prod :=
        prod_wayCount_pos fun child _ => child.wayCount_pos
      simp only [List.isEmpty_cons, Bool.false_eq_true, if_false, List.map_cons, List.sum_cons,
        List.length_cons]
      omega

theorem ways_census_eq_one_iff (f : Forest L) : f.census.ways = some 1 ↔ f.Unambiguous := by
  rw [f.ways_census, ← f.wayCount_eq_one_iff, checked?_eq_ite]
  split
  · exact Option.some_inj
  · simp
    omega

end Forest

/-! ### Nodes of a table -/

namespace ForestGraph

variable {g : ForestGraph L}

/-- A child of a node in an unambiguous forest is unambiguous. -/
theorem unambiguous_of_reaches {i j : Nat} (hreach : Reaches g.children i j) {f : Forest L}
    (hf : g.forestAt? i = some f) (h : f.Unambiguous) :
    ∃ f', g.forestAt? j = some f' ∧ f'.Unambiguous := by
  induction hreach generalizing f with
  | refl _ => exact ⟨f, hf, h⟩
  | step edge _ ih =>
    obtain ⟨n, hn, rfl⟩ := exists_node_of_forestAt?_eq_some hf
    obtain ⟨f', hf'⟩ := exists_forestAt?_of_mem_children edge
    rw [children_eq hn] at edge
    obtain ⟨children, hmem, hchild⟩ := List.mem_flatten.1 edge
    exact ih hf' ((Forest.unambiguous_node_iff.1 h).2 _ (List.mem_map_of_mem hmem) f'
      (List.mem_filterMap.2 ⟨_, hchild, hf'⟩))

/-- A forest is unambiguous if no node below is ambiguous, and only then. -/
theorem unambiguous_iff {i : Nat} {f : Forest L} (hf : g.forestAt? i = some f) :
    f.Unambiguous ↔ ∀ j, Reaches g.children i j → ∀ n, g.nodes[j]? = some n → ¬n.isAmbiguous := by
  constructor
  · intro h j hreach n hn
    obtain ⟨f', hf', h'⟩ := unambiguous_of_reaches hreach hf h
    obtain ⟨n', hn', rfl⟩ := exists_node_of_forestAt?_eq_some hf'
    cases hn.symm.trans hn'
    simpa [ForestNode.isAmbiguous] using (Forest.unambiguous_node_iff.1 h').1
  · intro h
    refine forall_forestAt?_of_reaches (fun j n hreach hn ih => .node ?_ ih) (.refl i) hf
    simpa [ForestNode.isAmbiguous] using h j hreach n hn

end ForestGraph

/-! ### One way -/

/-- **Ambiguity is exactly more than one way.** The census of every node of a table can be taken,
and its ways are one if and only if no node that can be reached, itself included, has more than one
alternative. For each root of the forests of a parse, this is so if and only if the root stands for
exactly one tree. -/
theorem ways_eq_one_iff {K : Type v} {V : Type w} [DecidableEq K] [DecidableEq V] :
    (∀ (g : ForestGraph L) (i : Nat), i < g.size → ∃ census, g.census? i = some census ∧
      (census.ways = some 1 ↔
        ∀ j, Reaches g.children i j → ∀ n, g.nodes[j]? = some n → ¬n.isAmbiguous)) ∧
    (∀ (g : Grammar K V) (input : List V), input ≠ [] →
      ∃ fs, (Parser.ofGrammar g).parse input = .ok fs ∧ ∀ r ∈ fs.roots, ∃ census f,
        fs.graph.census? r = some census ∧ fs.graph.forestAt? r = some f ∧
          (census.ways = some 1 ↔ ∃ t, f.trees = [t])) := by
  constructor
  · intro g i hi
    obtain ⟨f, hf⟩ := Option.isSome_iff_exists.1 (ForestGraph.isSome_forestAt?_iff.2 hi)
    refine ⟨_, ForestGraph.census?_eq hf, ?_⟩
    rw [f.ways_census_eq_one_iff, ForestGraph.unambiguous_iff hf]
  · intro g input hinput
    refine ⟨_, Parser.parse_of_ne_nil g hinput, fun r hr => ?_⟩
    obtain ⟨f, hf⟩ := SharedForests.exists_forestAt?_of_mem_roots hr
    have hsingle : f.SingleLeaves :=
      Parser.singleLeaves_of_mem_forests (SharedForests.mem_toForests.2 ⟨r, hr, hf⟩)
    refine ⟨_, f, ForestGraph.census?_eq hf, hf, ?_⟩
    rw [f.ways_census_eq_one_iff, ← f.wayCount_eq_one_iff, hsingle.wayCount_eq,
      List.length_eq_one_iff]

/-- A number of ways that is unknown is not one. Of the two forests for `xxx`, one has two trees,
and the other one a single tree. -/
theorem ways_eq_one_iff_forked :
    3 < SharedForests.sharedPowers.graph.size ∧
      (∃ census, SharedForests.sharedPowers.graph.census? 3 = some census ∧
        census.ways ≠ some 1) ∧
      ['x', 'x', 'x'] ≠ [] ∧ ∃ fs, (Parser.ofGrammar .forked).parse ['x', 'x', 'x'] = .ok fs ∧
        ∃ r r', fs.roots = [r, r'] ∧ (∃ f, fs.graph.forestAt? r = some f ∧ ¬∃ t, f.trees = [t]) ∧
          ∃ f, fs.graph.forestAt? r' = some f ∧ ∃ t, f.trees = [t] := by
  have hsize : 3 < SharedForests.sharedPowers.graph.size := by decide +kernel
  have hinput : ['x', 'x', 'x'] ≠ [] := List.cons_ne_nil _ _
  obtain ⟨htable, hparse⟩ := ways_eq_one_iff (L := Char) (K := Char) (V := Char)
  refine ⟨hsize, ?_, hinput, ?_⟩
  · obtain ⟨census, hcensus, hways⟩ := htable _ 3 hsize
    refine ⟨census, hcensus, fun hone => ?_⟩
    have hedge : 1 ∈ SharedForests.sharedPowers.graph.children 3 := by decide +kernel
    have hnode : SharedForests.sharedPowers.graph.nodes[1]? = some ⟨'B', [[0], [0]]⟩ := by
      decide +kernel
    exact hways.1 hone 1 (.step hedge (.refl 1)) _ hnode rfl
  · obtain ⟨fs, hfs, hroots⟩ := hparse .forked _ hinput
    have hnumbers : fs.roots = [5, 6] := by
      cases hfs
      decide +kernel
    have hfirst : (fs.graph.census? 5).map Census.ways = some (some 2) := by
      cases hfs
      decide +kernel
    have hsecond : (fs.graph.census? 6).map Census.ways = some (some 1) := by
      cases hfs
      decide +kernel
    obtain ⟨_, f, hcensus, hf, htrees⟩ := hroots 5 (by simp [hnumbers])
    obtain ⟨_, f', hcensus', hf', htrees'⟩ := hroots 6 (by simp [hnumbers])
    rw [hcensus, Option.map_some, Option.some_inj] at hfirst
    rw [hcensus', Option.map_some, Option.some_inj] at hsecond
    refine ⟨fs, hfs, 5, 6, hnumbers, ⟨f, hf, ?_⟩, f', hf', htrees'.1 hsecond⟩
    rw [← htrees, hfirst]
    decide

end ChartParsing
