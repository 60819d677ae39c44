import ChartParsing.Proofs.Forest.Bounds
import ChartParsing.Proofs.Forest.Ways
import ChartParsing.Proofs.Splice.Trees

/-!
# Censuses of spliced forests

Splicing keeps the number of trees and makes none of them larger: a node with a temporary key gives
way to its children, and with them it loses nothing but itself. So the census of a spliced forest
has as many ways and no larger bounds. A tree may also lose all of its leaves, where the forest
stands for nodes without children.

## Main definitions

* `Census.ReducesTo`: as many ways, and no larger bounds.

## Main results

* `Tree.extent_splice?_le`: splicing enlarges no tree.
* `Forest.Faultless.singleLeaves`: a leaf of a spliced forest has one alternative.
* `SharedForests.census_splice`: the censuses of spliced forests.
-/

namespace ChartParsing

universe u v

variable {K : Type u} {V : Type v}

/-! ### Extents of spliced trees -/

namespace Tree

private theorem extentOfList_append (b : Census.Bound) (ts us : List (Tree K)) :
    extentOfList b.join (ts ++ us) =
      b.join (extentOfList b.join ts) (extentOfList b.join us) := by
  induction ts with
  | nil => rw [List.nil_append, extentOfList, b.zero_join]
  | cons t ts ih => rw [List.cons_append, extentOfList, extentOfList, ih, b.join_assoc]

private theorem extentOfList_singleton (b : Census.Bound) (t : Tree K) :
    extentOfList b.join [t] = t.extent b.join := by
  rw [extentOfList, extentOfList, b.join_zero]

private theorem extentOfList_le_extent_node (b : Census.Bound) (key : K) (ts : List (Tree K)) :
    extentOfList b.join ts ≤ (node key ts).extent b.join := by
  by_cases h : ts = []
  · rw [h, extentOfList]
    exact Nat.zero_le _
  · rw [extent_node_of_ne_nil _ _ h]
    exact Nat.le_succ _

theorem extent_node_le_extent_node {L : Type v} (b : Census.Bound) (key : K) (key' : L)
    {ts : List (Tree K)} {us : List (Tree L)}
    (h : extentOfList b.join us ≤ extentOfList b.join ts) (hnil : ts = [] → us = []) :
    (node key' us).extent b.join ≤ (node key ts).extent b.join := by
  by_cases hne : us = []
  · rw [hne, extent_node_nil]
    exact Nat.zero_le _
  · rw [extent_node_of_ne_nil _ _ hne, extent_node_of_ne_nil _ _ (mt hnil hne)]
    exact Nat.add_le_add_right h 1

variable [DecidableEq K] {g : Grammar K V}

private theorem spliceChildren?_nil_eq_some {spliced : List (Tree (Symbol K V))}
    {ts : List (Tree K)} (h : spliceChildren? g ts = some spliced) (hnil : ts = []) :
    spliced = [] := by
  subst hnil
  cases h
  rfl

mutual

/-- What takes the place of a child is no larger than the child. -/
private theorem extentOfList_spliceChild?_le (b : Census.Bound) : (t : Tree K) →
    {spliced : List (Tree (Symbol K V))} → t.spliceChild? g = some spliced →
      extentOfList b.join spliced ≤ t.extent b.join
  | .leaf key, spliced, h => by
    rw [spliceChild?, Option.map_eq_some_iff] at h
    obtain ⟨value, -, rfl⟩ := h
    rw [extentOfList_singleton, extent_leaf]
    exact Nat.zero_le _
  | .node key children, spliced, h => by
    rw [spliceChild?, Option.map_eq_some_iff] at h
    obtain ⟨spliced, hspliced, rfl⟩ := h
    have hle := extentOfList_spliceChildren?_le b children hspliced
    split
    · exact hle.trans (extentOfList_le_extent_node b key children)
    · rw [extentOfList_singleton]
      exact extent_node_le_extent_node b key _ hle (spliceChildren?_nil_eq_some hspliced)

/-- What takes the place of children is no larger than the children. -/
theorem extentOfList_spliceChildren?_le (b : Census.Bound) : (ts : List (Tree K)) →
    {spliced : List (Tree (Symbol K V))} → spliceChildren? g ts = some spliced →
      extentOfList b.join spliced ≤ extentOfList b.join ts
  | [], spliced, h => by
    rw [spliceChildren?_nil_eq_some h rfl, extentOfList]
    exact Nat.zero_le _
  | t :: ts, spliced, h => by
    rw [spliceChildren?, Option.bind_eq_some_iff] at h
    obtain ⟨front, hfront, hrest⟩ := h
    obtain ⟨back, hback, rfl⟩ := Option.map_eq_some_iff.1 hrest
    rw [extentOfList_append, extentOfList]
    exact b.join_le_join (extentOfList_spliceChild?_le b t hfront)
      (extentOfList_spliceChildren?_le b ts hback)

end

/-- Splicing enlarges no tree. -/
theorem extent_splice?_le (b : Census.Bound) {t : Tree K} {spliced : Tree (Symbol K V)}
    (h : t.splice? g = some spliced) : spliced.extent b.join ≤ t.extent b.join := by
  cases t with
  | leaf key =>
    rw [splice?, Option.map_eq_some_iff] at h
    obtain ⟨value, -, rfl⟩ := h
    rw [extent_leaf, extent_leaf]
  | node key children =>
    rw [splice?, Option.map_eq_some_iff] at h
    obtain ⟨spliced, hspliced, rfl⟩ := h
    exact extent_node_le_extent_node b key _ (extentOfList_spliceChildren?_le b children hspliced)
      (spliceChildren?_nil_eq_some hspliced)

end Tree

/-! ### Censuses of smaller trees -/

namespace Census

/-- A bound is no larger, if for each tree on one side there is one on the other side and the trees
on the right are no larger. -/
theorem Bound.Attains.value_le {L : Type v} {b : Bound} {c c' : Census} {ts : List (Tree K)}
    {us : List (Tree L)} (h : b.Attains c ts) (h' : b.Attains c' us)
    (hright : ∀ t ∈ ts, ∃ u ∈ us, u.extent b.join ≤ t.extent b.join)
    (hleft : ∀ u ∈ us, ∃ t ∈ ts, u.extent b.join ≤ t.extent b.join) : b.value c' ≤ b.value c := by
  obtain ⟨t, ht, hvalue, hbest⟩ := h
  obtain ⟨u, hu, hvalue', hbest'⟩ := h'
  rw [hvalue, hvalue']
  refine b.cap_le_cap ?_
  cases hb : b.isLower with
  | true =>
    obtain ⟨u', hu', hle⟩ := hright t ht
    exact ((Bound.better_iff_of_isLower hb).1 (hbest' u' hu')).trans hle
  | false =>
    obtain ⟨t', ht', hle⟩ := hleft u hu
    exact hle.trans ((Bound.better_iff_of_not_isLower hb).1 (hbest t' ht'))

/-- The census `c'` has as many ways as `c` and no larger bounds. -/
structure ReducesTo (c c' : Census) : Prop where
  /-- There are as many trees, or too many to be counted on both sides. -/
  ways_eq : c'.ways = c.ways
  /-- There is a tree with at most as few nodes. -/
  minNodes_le : c'.minNodes ≤ c.minNodes
  /-- No tree has more nodes. -/
  maxNodes_le : c'.maxNodes ≤ c.maxNodes
  /-- There is a tree that is at most as high. -/
  minDepth_le : c'.minDepth ≤ c.minDepth
  /-- No tree is higher. -/
  maxDepth_le : c'.maxDepth ≤ c.maxDepth

private theorem map_ways_choice? {censuses censuses' : List Census}
    (h : List.Forall₂ (fun c c' : Census => c'.ways = c.ways) censuses censuses') :
    (choice? censuses').map ways = (choice? censuses).map ways := by
  cases h with
  | nil => rfl
  | @cons a a' rest rest' ha hrest =>
    simp only [choice?, Option.map_some, Option.some_inj]
    induction hrest generalizing a a' with
    | nil => exact ha
    | cons hc _ ih => exact ih (by rw [or, or, ha, hc])

end Census

/-! ### Leaves of spliced forests -/

namespace Forest

variable [DecidableEq K] {t : SpliceTable K V}

/-- What takes the place of an alternative is made of what takes the place of the children. -/
theorem forall_mem_splicedAlternatives {motive : Forest (Symbol K V) → Prop}
    {alternatives : List (List (Forest K))}
    (h : ∀ children ∈ alternatives, ∀ child ∈ children, ∀ l ∈ child.replacements t, ∀ f ∈ l,
      motive f) :
    ∀ l ∈ splicedAlternatives t alternatives, ∀ f ∈ l, motive f := by
  intro l hl f hf
  obtain ⟨_, hchildren, hchoice⟩ := List.mem_flatMap.1 hl
  obtain ⟨children, hmem, rfl⟩ := List.mem_map.1 hchildren
  obtain ⟨lists, hlists, rfl⟩ := List.mem_map.1 hchoice
  obtain ⟨l, hl, hf⟩ := List.mem_flatten.1 hf
  obtain ⟨_, hoptions, hmem'⟩ := exists_mem_of_mem_choices hlists hl
  obtain ⟨child, hchild, rfl⟩ := List.mem_map.1 hoptions
  exact h children hmem child hchild l hmem' f hf

/-- Leaves are spliced to leaves with one alternative, and nothing else is spliced to a leaf. -/
theorem Faultless.singleLeaves {f : Forest K} (h : f.Faultless t) :
    ∀ l ∈ f.replacements t, ∀ f' ∈ l, f'.SingleLeaves := by
  induction h with
  | leaf isLeaf output_eq =>
    rw [replacements_of_isLeaf isLeaf output_eq, List.forall_mem_singleton,
      List.forall_mem_singleton]
    exact .node (fun _ => Nat.le_refl 1) (by simp)
  | temporary not_isLeaf flag_eq _ ih =>
    rw [replacements_of_temporary not_isLeaf flag_eq]
    exact forall_mem_splicedAlternatives ih
  | kept not_isLeaf flag_eq each ih =>
    rw [replacements_of_kept not_isLeaf flag_eq, List.forall_mem_singleton,
      List.forall_mem_singleton]
    refine .node (fun hempty => ?_) (forall_mem_splicedAlternatives ih)
    obtain ⟨l, hl, hne⟩ := exists_mem_splicedAlternatives not_isLeaf
      fun children hmem child hchild => (each children hmem child hchild).exists_mem_replacements
    exact absurd (List.isEmpty_iff.1 (List.all_eq_true.1 hempty l hl)) hne

end Forest

/-! ### Censuses of spliced forests -/

/-- The census of a forest whose trees are those of another one, spliced. -/
theorem Forest.reducesTo_census [DecidableEq K] {g : Grammar K V} {f : Forest K}
    {f' : Forest (Symbol K V)} (hf : f.SingleLeaves) (hf' : f'.SingleLeaves)
    (hperm : (f'.trees.map some).Perm (f.trees.map (Tree.splice? g))) :
    f.census.ReducesTo f'.census := by
  have hlength : f'.trees.length = f.trees.length := by simpa using hperm.length_eq
  have hvalue : ∀ b : Census.Bound, b.value f'.census ≤ b.value f.census := by
    refine fun b => (f.attains_census b).value_le (f'.attains_census b) (fun t ht => ?_)
      fun u hu => ?_
    · obtain ⟨u, hu, hsplice⟩ := List.mem_map.1 (hperm.mem_iff.2 (List.mem_map_of_mem ht))
      exact ⟨u, hu, Tree.extent_splice?_le b hsplice.symm⟩
    · obtain ⟨t, ht, hsplice⟩ := List.mem_map.1 (hperm.mem_iff.1 (List.mem_map_of_mem hu))
      exact ⟨t, ht, Tree.extent_splice?_le b hsplice⟩
  exact ⟨by rw [hf'.ways_census.2, hf.ways_census.2, hlength], hvalue .minNodes, hvalue .maxNodes,
    hvalue .minDepth, hvalue .maxDepth⟩

namespace SharedForests

variable [DecidableEq K] [DecidableEq V] {g : Grammar K V} {fs : SharedForests K}
  {flat : SharedForests (Symbol K V)}

theorem forall₂_reducesTo_splice (hleaves : fs.SingleLeaves) (h : fs.splice g = .ok flat) :
    List.Forall₂ (fun f f' => f.census.ReducesTo f'.census) fs.toForests flat.toForests := by
  obtain ⟨t, ht, hfault, hforests⟩ := exists_table_of_splice h
  have hroots : ∀ f ∈ fs.toForests,
      f.SingleLeaves ∧ t.flag? f.label = some false ∧ f.fault? t = none := fun f hf => by
    obtain ⟨r, hr, hforest⟩ := mem_toForests.1 hf
    exact ⟨hleaves.of_mem_roots hr hforest, SpliceTable.firstFault?_eq_none_iff.1 hfault f hf⟩
  refine ((List.forall₂_and_left _ _).2 ⟨hroots, hforests⟩).imp ?_
  rintro f f' ⟨⟨hsingle, hflag, hfault⟩, hf'⟩
  have hsingle' : f'.SingleLeaves := (Forest.faultless_of_fault?_eq_none hfault).singleLeaves
    [f'] (hf' ▸ List.mem_singleton_self _) f' (List.mem_singleton_self _)
  exact Forest.reducesTo_census hsingle hsingle' (perm_trees_of_replacements ht hflag hfault hf')

/-- **Splicing keeps the number of trees and enlarges none.** If forests are spliced, the census of
each spliced forest has as many ways as that of the forest it comes from and no larger bounds, and
the census of all spliced forests together has as many ways as that of all forests. -/
theorem census_splice (hleaves : fs.SingleLeaves) (h : fs.splice g = .ok flat) :
    List.Forall₂ (fun r r' => ∃ c c', fs.graph.census? r = some c ∧
        flat.graph.census? r' = some c' ∧ c.ReducesTo c') fs.roots flat.roots ∧
      flat.census?.map Census.ways = fs.census?.map Census.ways := by
  have hforests := forall₂_reducesTo_splice hleaves h
  constructor
  · refine (forall₂_roots hforests).imp ?_
    rintro r r' ⟨f, f', hf, hf', hreduces⟩
    exact ⟨_, _, ForestGraph.census?_eq hf, ForestGraph.census?_eq hf', hreduces⟩
  · rw [census?_eq, census?_eq]
    refine Census.map_ways_choice? ?_
    rw [List.forall₂_map_left_iff, List.forall₂_map_right_iff]
    exact hforests.imp fun _ _ hreduces => hreduces.ways_eq

/-- Shared forests with the keys of `Grammar.pairs`: a temporary forest stands for a node without
children and for two others, once alone below the root and once between two leaves. -/
def sharedMixed : SharedForests Char :=
  .ofRoots (.ofNodes [⟨'a', [[]]⟩, ⟨'b', [[]]⟩, ⟨'T', [[], [0, 1], [1, 0]]⟩,
    ⟨'S', [[2], [0, 2, 1]]⟩]) [3]

private theorem singleLeaves_sharedMixed : sharedMixed.SingleLeaves := by
  have hnodes : ∀ n ∈ sharedMixed.graph.nodes, n.isLeaf → n.alternatives.length ≤ 1 := by decide
  intro r _ i _ n hn
  exact hnodes n (Array.mem_of_getElem? hn)

/-- All six trees are kept, one of them without its leaves. -/
theorem census_splice_sharedMixed :
    sharedMixed.SingleLeaves ∧ ∃ flat, sharedMixed.splice .pairs = .ok flat ∧
      (∃ r ∈ flat.roots, ∃ c, flat.graph.census? r = some c ∧ c.ways = some 6 ∧ c.minNodes ≤ 1 ∧
        c.maxNodes ≤ 2 ∧ c.minDepth ≤ 1 ∧ c.maxDepth ≤ 2) ∧
      flat.census?.map Census.ways = some (some 6) := by
  obtain ⟨flat, hflat⟩ : ∃ flat, sharedMixed.splice .pairs = .ok flat := ⟨_, rfl⟩
  obtain ⟨heach, htogether⟩ := census_splice singleLeaves_sharedMixed hflat
  have hroots : sharedMixed.roots = [3] := by decide
  have hcensus : sharedMixed.graph.census? 3 = some ⟨1, 2, 1, 2, some 6⟩ := by decide +kernel
  have hall : sharedMixed.census?.map Census.ways = some (some 6) := by decide +kernel
  rw [hroots, List.forall₂_cons_left_iff] at heach
  obtain ⟨r, _, ⟨c, c', hc, hc', hreduces⟩, -, heq⟩ := heach
  cases hc.symm.trans hcensus
  refine ⟨singleLeaves_sharedMixed, flat, hflat, ⟨r, heq ▸ List.mem_cons_self, c', hc',
    hreduces.ways_eq, hreduces.minNodes_le, hreduces.maxNodes_le, hreduces.minDepth_le,
    hreduces.maxDepth_le⟩, htogether.trans hall⟩

end SharedForests

end ChartParsing
