import ChartParsing.Proofs.Forest.Bounds
import Mathlib.Algebra.Order.Ring.Nat

/-!
# The bounds of a census as extrema over trees

A census counts nothing for a node without children. Such nodes come from forests that stand for
leaves and for nodes at once; where there are none, the extents of trees are their numbers of nodes
and their heights, and the bounds of a census are the smallest and the largest of these over all
trees. Numbers of nodes are shown up to the largest count: to stop there at every sum is the same as
to stop there once, at the end.

## Main definitions

* `Tree.EndsInLeaves`: a tree without childless nodes.
* `Census.ShowsExtrema`: the bounds of a census are the extrema over some trees.

## Main results

* `Tree.EndsInLeaves.extent_add_eq`, `Tree.EndsInLeaves.extent_max_eq`: extents are numbers of nodes
  and heights.
* `Forest.Unmixed.endsInLeaves`: the trees of a forest have no childless nodes.
* `SharedForests.census_extrema`: the bounds of a census are the extrema over the trees of a forest.
-/

namespace ChartParsing

universe u

variable {K : Type u}

/-! ### Trees without childless nodes -/

namespace Tree

/-- Every node of the tree, at any depth, has children. -/
inductive EndsInLeaves : Tree K → Prop where
  /-- A leaf has no nodes. -/
  | leaf (key : K) : EndsInLeaves (.leaf key)
  /-- A node has children, and so has every node below it. -/
  | node (key : K) {children : List (Tree K)} (ne_nil : children ≠ [])
      (each : ∀ child ∈ children, EndsInLeaves child) : EndsInLeaves (.node key children)

namespace EndsInLeaves

/-- If a measure of trees is 0 for a leaf and one more than the joined measures of the children for
a node, it is the extent of a tree without childless nodes. -/
theorem extent_eq {join : Nat → Nat → Nat} {measure : Tree K → Nat}
    (measureOfList : List (Tree K) → Nat) (leaf : ∀ key, measure (.leaf key) = 0)
    (node : ∀ key children, measure (.node key children) = measureOfList children + 1)
    (nil : measureOfList [] = 0)
    (cons : ∀ t ts, measureOfList (t :: ts) = join (measure t) (measureOfList ts)) {t : Tree K}
    (h : t.EndsInLeaves) : t.extent join = measure t := by
  have hlist : ∀ ts : List (Tree K), (∀ t ∈ ts, t.extent join = measure t) →
      extentOfList join ts = measureOfList ts := by
    intro ts hts
    induction ts with
    | nil => rw [extentOfList, nil]
    | cons t ts ih =>
      rw [List.forall_mem_cons] at hts
      rw [extentOfList, cons, hts.1, ih hts.2]
  induction h with
  | leaf key => rw [extent_leaf, leaf]
  | node key ne_nil _ ih => rw [extent_node_of_ne_nil _ _ ne_nil, node, hlist _ ih]

/-- Joined by addition, extents are numbers of nodes. -/
theorem extent_add_eq {t : Tree K} (h : t.EndsInLeaves) : t.extent (· + ·) = t.nodeCount :=
  h.extent_eq nodeCountOfList (fun _ => by rw [nodeCount]) (fun _ _ => by rw [nodeCount])
    (by rw [nodeCountOfList]) fun _ _ => by rw [nodeCountOfList]

/-- Joined by taking the maximum, extents are heights. -/
theorem extent_max_eq {t : Tree K} (h : t.EndsInLeaves) : t.extent max = t.depth :=
  h.extent_eq depthOfList (fun _ => by rw [depth]) (fun _ _ => by rw [depth])
    (by rw [depthOfList]) fun _ _ => by rw [depthOfList]

end EndsInLeaves

end Tree

/-- The trees of a forest have no childless nodes, if no part of it stands both for a leaf and for
nodes. -/
theorem Forest.Unmixed.endsInLeaves {f : Forest K} (h : f.Unmixed) :
    ∀ t ∈ f.trees, t.EndsInLeaves := by
  induction h with
  | @node label alternatives uniform _ ih =>
    intro t ht
    by_cases hleaf : (Forest.node label alternatives).isLeaf
    · rw [trees_of_isLeaf hleaf, List.mem_singleton] at ht
      rw [ht]
      exact .leaf _
    · obtain ⟨children, hmem, ts, hts, rfl⟩ := (mem_trees_node hleaf).1 ht
      have hchildren : children ≠ [] := fun heq =>
        uniform.resolve_left hleaf (heq ▸ hmem)
      refine .node label ?_ fun u hu => ?_
      · obtain ⟨child, rest, rfl⟩ := List.exists_cons_of_ne_nil hchildren
        obtain ⟨_, -, _, -, rfl⟩ := mem_choices_cons.1 hts
        exact List.cons_ne_nil _ _
      · obtain ⟨_, hoptions, hu'⟩ := exists_mem_of_mem_choices hts hu
        obtain ⟨child, hchild, rfl⟩ := List.mem_map.1 hoptions
        exact ih children hmem child hchild u hu'

/-! ### Extrema -/

namespace Census.Bound.Attains

variable {b : Bound} {c : Census} {ts : List (Tree K)} {measure : Tree K → Nat}

private theorem min?_eq (h : b.Attains c ts) (hlower : b.isLower = true)
    (hmeasure : ∀ t ∈ ts, t.extent b.join = measure t) :
    (ts.map measure).min?.map b.cap = some (b.value c) := by
  obtain ⟨t, ht, hvalue, hbest⟩ := h
  have hmin : (ts.map measure).min? = some (measure t) := by
    rw [List.min?_eq_some_iff, List.forall_mem_map]
    refine ⟨List.mem_map_of_mem ht, fun u hu => ?_⟩
    rw [← hmeasure t ht, ← hmeasure u hu]
    exact (better_iff_of_isLower hlower).1 (hbest u hu)
  rw [hmin, hvalue, hmeasure t ht]
  rfl

private theorem max?_eq (h : b.Attains c ts) (hupper : b.isLower = false)
    (hmeasure : ∀ t ∈ ts, t.extent b.join = measure t) :
    (ts.map measure).max?.map b.cap = some (b.value c) := by
  obtain ⟨t, ht, hvalue, hbest⟩ := h
  have hmax : (ts.map measure).max? = some (measure t) := by
    rw [List.max?_eq_some_iff, List.forall_mem_map]
    refine ⟨List.mem_map_of_mem ht, fun u hu => ?_⟩
    rw [← hmeasure t ht, ← hmeasure u hu]
    exact (better_iff_of_not_isLower hupper).1 (hbest u hu)
  rw [hmax, hvalue, hmeasure t ht]
  rfl

end Census.Bound.Attains

/-- The bounds of a census are the extrema over the given trees. Numbers of nodes are shown up to
`2 ^ 64 - 1`. -/
structure Census.ShowsExtrema (c : Census) (ts : List (Tree K)) : Prop where
  /-- The fewest nodes of a tree. -/
  minNodes_eq : (ts.map Tree.nodeCount).min?.map (min · (2 ^ 64 - 1)) = some c.minNodes
  /-- The most nodes of a tree. -/
  maxNodes_eq : (ts.map Tree.nodeCount).max?.map (min · (2 ^ 64 - 1)) = some c.maxNodes
  /-- The smallest height of a tree. -/
  minDepth_eq : (ts.map Tree.depth).min? = some c.minDepth
  /-- The largest height of a tree. -/
  maxDepth_eq : (ts.map Tree.depth).max? = some c.maxDepth

/-- The bounds of the census of a forest are the extrema over its trees, if no part of it stands
both for a leaf and for nodes. -/
theorem Forest.Unmixed.showsExtrema_census {f : Forest K} (h : f.Unmixed) :
    f.census.ShowsExtrema f.trees where
  minNodes_eq := (f.attains_census .minNodes).min?_eq rfl fun t ht =>
    (h.endsInLeaves t ht).extent_add_eq
  maxNodes_eq := (f.attains_census .maxNodes).max?_eq rfl fun t ht =>
    (h.endsInLeaves t ht).extent_add_eq
  minDepth_eq := by
    have hmin := (f.attains_census .minDepth).min?_eq rfl fun t ht =>
      (h.endsInLeaves t ht).extent_max_eq
    simpa [Census.Bound.minDepth] using hmin
  maxDepth_eq := by
    have hmax := (f.attains_census .maxDepth).max?_eq rfl fun t ht =>
      (h.endsInLeaves t ht).extent_max_eq
    simpa [Census.Bound.maxDepth] using hmax

namespace SharedForests

/-- **The bounds of a census are the extrema over all trees.** If no forest below the roots has both
an alternative without children and one with children, the census of each root can be taken. It
shows the fewest and the most nodes of a tree that the root stands for, up to `2 ^ 64 - 1`, and the
smallest and the largest height. -/
theorem census_extrema {fs : SharedForests K} (h : fs.Unmixed) :
    ∀ r ∈ fs.roots, ∃ f c, fs.graph.forestAt? r = some f ∧ fs.graph.census? r = some c ∧
      c.ShowsExtrema f.trees := by
  intro r hr
  obtain ⟨f, hf⟩ := exists_forestAt?_of_mem_roots hr
  have hunmixed := h.of_reaches hr (.refl r) hf
  exact ⟨f, f.census, hf, ForestGraph.census?_eq hf, hunmixed.showsExtrema_census⟩

/-- At each of 17 levels there is a choice between two leaves and 16 times the forest of the level
below. -/
def sharedLevels : SharedForests Char :=
  .ofRoots (.ofNodes (⟨'a', [[]]⟩ ::
    (List.range 17).map fun i => ⟨'S', [List.replicate 16 i, [0, 0]]⟩)) [17]

private theorem unmixed_sharedLevels : sharedLevels.Unmixed := by
  have hnodes : ∀ n ∈ sharedLevels.graph.nodes,
      ¬([] ∈ n.alternatives ∧ ∃ children ∈ n.alternatives, children ≠ []) := by decide +kernel
  intro r _ i _ n hn
  exact hnodes n (Array.mem_of_getElem? hn)

/-- There are trees that are 1 and 17 nodes high, and one of the trees has as many nodes as a census
can show, or more. -/
theorem census_extrema_sharedLevels :
    sharedLevels.Unmixed ∧ 17 ∈ sharedLevels.roots ∧
      ∃ f, sharedLevels.graph.forestAt? 17 = some f ∧
        (f.trees.map Tree.nodeCount).min?.map (min · (2 ^ 64 - 1)) = some 1 ∧
        (∃ t ∈ f.trees, 2 ^ 64 - 1 ≤ t.nodeCount) ∧
        (f.trees.map Tree.depth).min? = some 1 ∧ (f.trees.map Tree.depth).max? = some 17 := by
  have hroot : 17 ∈ sharedLevels.roots := by decide +kernel
  have hcensus : sharedLevels.graph.census? 17 = some ⟨1, 2 ^ 64 - 1, 1, 17, none⟩ := by
    decide +kernel
  obtain ⟨f, c, hf, hc, hshows⟩ := census_extrema unmixed_sharedLevels 17 hroot
  cases hc.symm.trans hcensus
  refine ⟨unmixed_sharedLevels, hroot, f, hf, hshows.minNodes_eq, ?_, hshows.minDepth_eq,
    hshows.maxDepth_eq⟩
  obtain ⟨most, hmost, hcap⟩ := Option.map_eq_some_iff.1 hshows.maxNodes_eq
  obtain ⟨t, ht, rfl⟩ := List.mem_map.1 (List.max?_eq_some_iff.1 hmost).1
  exact ⟨t, ht, Nat.le_trans (Nat.le_of_eq hcap.symm) (Nat.min_le_left _ _)⟩

end SharedForests

end ChartParsing
