import ChartParsing.Proofs.Chart.Derivations
import ChartParsing.Proofs.Forest.Bounds
import Mathlib.Algebra.Order.Ring.Nat

/-!
# The shape of derivations

A step of a derivation divides the values below it into two parts, neither of which is empty. So a
derivation of `n` values has `n - 1` nodes with children, one for each place between two values; it
is lower than `n`, and at least as high as a tree must be that branches in two and has `n` leaves.
The census of a parse shows this without looking at the derivations.

## Main definitions

* `Census.ShapedFor`: the bounds that a census shows for derivations of a number of values.

## Main results

* `Grammar.Yields.extent_add_eq`, `Grammar.Yields.extent_max_lt`,
  `Grammar.Yields.length_le_two_pow`: the number of nodes and the height of a derivation.
* `Parser.parse_shapedFor`: the censuses of a parse.
-/

namespace ChartParsing

universe u v

variable {K : Type u} {V : Type v} {g : Grammar K V}

/-! ### Derivations -/

theorem Tree.extent_pair (b : Census.Bound) (key : K) (l r : Tree K) :
    (node key [l, r]).extent b.join = b.join (l.extent b.join) (r.extent b.join) + 1 := by
  rw [extent_node_of_ne_nil _ _ (List.cons_ne_nil _ _), extentOfList, extentOfList, extentOfList,
    b.join_zero]

namespace Grammar.Yields

open Census

variable {t : Tree K} {values : List V}

/-- A derivation has a node for every place between two values. -/
theorem extent_add_eq (h : g.Yields t values) :
    t.extent Bound.minNodes.join + 1 = values.length := by
  induction h with
  | leaf _ => rw [Tree.extent_leaf, List.length_singleton]
  | @node rule l r _ _ _ _ _ _ _ ihl ihr =>
    have hpair : (Tree.node rule.key [l, r]).extent Bound.minNodes.join =
        l.extent Bound.minNodes.join + r.extent Bound.minNodes.join + 1 := Tree.extent_pair ..
    rw [hpair, List.length_append]
    omega

/-- A derivation is lower than the number of its values. -/
theorem extent_max_lt (h : g.Yields t values) :
    t.extent Bound.maxDepth.join < values.length := by
  induction h with
  | leaf _ => rw [Tree.extent_leaf, List.length_singleton]; exact Nat.zero_lt_one
  | @node rule l r _ _ _ left right _ _ ihl ihr =>
    have hpair : (Tree.node rule.key [l, r]).extent Bound.maxDepth.join =
        max (l.extent Bound.maxDepth.join) (r.extent Bound.maxDepth.join) + 1 :=
      Tree.extent_pair ..
    have hl := left.length_pos
    have hr := right.length_pos
    rw [hpair, List.length_append]
    omega

/-- One more level has room for at most twice as many values. -/
theorem length_le_two_pow (h : g.Yields t values) :
    values.length ≤ 2 ^ t.extent Bound.minDepth.join := by
  induction h with
  | leaf _ =>
    rw [Tree.extent_leaf]
    exact Nat.le_refl 1
  | node _ _ _ _ _ ihl ihr =>
    rw [Tree.extent_pair, List.length_append, Nat.pow_succ, Nat.mul_two]
    refine Nat.add_le_add (Nat.le_trans ihl ?_) (Nat.le_trans ihr ?_)
    · exact Nat.pow_le_pow_right Nat.two_pos (Nat.le_max_left _ _)
    · exact Nat.pow_le_pow_right Nat.two_pos (Nat.le_max_right _ _)

end Grammar.Yields

/-! ### Censuses of derivations -/

namespace Census

variable {c : Census} {ts : List (Tree K)}

/-- The bounds of derivations of `n` values. A number of nodes is shown up to the largest count,
which is beyond the length of any input that is held in memory. -/
structure ShapedFor (n : Nat) (c : Census) : Prop where
  /-- There is no derivation with fewer nodes. -/
  minNodes_eq : c.minNodes = min (n - 1) maxCount
  /-- There is no derivation with more nodes. -/
  maxNodes_eq : c.maxNodes = min (n - 1) maxCount
  /-- The bounds for the height are in order. -/
  minDepth_le : c.minDepth ≤ c.maxDepth
  /-- No derivation is higher than it has nodes. -/
  maxDepth_le : c.maxDepth ≤ n - 1
  /-- Derivations branch in two. -/
  le_two_pow : n ≤ 2 ^ c.minDepth

/-- The bounds that trees attain are those of derivations, if all the trees are derivations. -/
theorem shapedFor_of_attains {values : List V} (h : ∀ b : Bound, b.Attains c ts)
    (hts : ∀ t ∈ ts, g.Yields t values) : c.ShapedFor values.length := by
  obtain ⟨fewest, hfewest, hminNodes, -⟩ := h .minNodes
  obtain ⟨most, hmost, hmaxNodes, -⟩ := h .maxNodes
  obtain ⟨lowest, hlowest, hminDepth, -⟩ := h .minDepth
  obtain ⟨highest, hhighest, hmaxDepth, -⟩ := h .maxDepth
  refine ⟨?_, ?_, minDepth_le_maxDepth (h .minDepth) (h .maxDepth), ?_, ?_⟩
  · rw [← (hts _ hfewest).extent_add_eq]
    exact hminNodes
  · rw [← (hts _ hmost).extent_add_eq]
    exact hmaxNodes
  · rw [show c.maxDepth = _ from hmaxDepth]
    exact Nat.le_sub_one_of_lt (hts _ hhighest).extent_max_lt
  · rw [show c.minDepth = _ from hminDepth]
    exact (hts _ hlowest).length_le_two_pow

end Census

/-! ### Censuses of a parse -/

namespace Parser

variable [DecidableEq K] [DecidableEq V] {input : List V}

theorem yields_of_mem_trees {f : Forest K}
    (hf : f ∈ ((ofGrammar g).forests (.ofInput (.ofGrammar g) input)).toForests) {t : Tree K}
    (ht : t ∈ f.trees) : g.Yields t input := by
  obtain ⟨key, -, henum⟩ := exists_enumerates_of_mem_forests hf
  exact ((henum.mem_trees t).1 ht).2

/-- **The shape of what is parsed.** The census of each forest of a parse shows that every
derivation of `n` values has `n - 1` nodes and how high it can be, and so does the census of all
forests together, if there are any. -/
theorem parse_shapedFor (g : Grammar K V) {input : List V} (hinput : input ≠ []) :
    ∃ fs, (ofGrammar g).parse input = .ok fs ∧
      (∀ r ∈ fs.roots, ∃ census, fs.graph.census? r = some census ∧
        census.ShapedFor input.length) ∧
      (fs.roots ≠ [] → ∃ census, fs.census? = some census ∧ census.ShapedFor input.length) := by
  refine ⟨_, parse_of_ne_nil g hinput, fun r hr => ?_, fun hroots => ?_⟩
  · obtain ⟨f, hf⟩ := SharedForests.exists_forestAt?_of_mem_roots hr
    have hyields : ∀ t ∈ f.trees, g.Yields t input := fun t =>
      yields_of_mem_trees (SharedForests.mem_toForests.2 ⟨r, hr, hf⟩)
    exact ⟨f.census, ForestGraph.census?_eq hf,
      Census.shapedFor_of_attains (fun b => f.attains_census b) hyields⟩
  · obtain ⟨census, hcensus⟩ := SharedForests.exists_census?_eq_some hroots
    have hyields : ∀ t ∈ ((ofGrammar g).forests (.ofInput (.ofGrammar g) input)).toForests.flatMap
        Forest.trees, g.Yields t input := fun t ht => by
      obtain ⟨f, hf, ht⟩ := List.mem_flatMap.1 ht
      exact yields_of_mem_trees hf ht
    exact ⟨census, hcensus, Census.shapedFor_of_attains
      (fun b => SharedForests.attains_census? b hcensus) hyields⟩

/-- The derivations of `abab` have three nodes, and are two or three nodes high. -/
theorem parse_shapedFor_pairs :
    ['a', 'b', 'a', 'b'] ≠ [] ∧ ∃ fs, (ofGrammar .pairs).parse ['a', 'b', 'a', 'b'] = .ok fs ∧
      fs.roots ≠ [] ∧ ∃ census, fs.census? = some census ∧ census.minNodes = 3 ∧
        census.maxNodes = 3 ∧ census.minDepth ≤ census.maxDepth ∧ census.maxDepth ≤ 3 ∧
        4 ≤ 2 ^ census.minDepth := by
  have hinput : ['a', 'b', 'a', 'b'] ≠ [] := List.cons_ne_nil _ _
  have hsome : ((ofGrammar .pairs).parse ['a', 'b', 'a', 'b']).toOption.map
      (fun fs => fs.roots.isEmpty) = some false := by decide +kernel
  obtain ⟨fs, hfs, -, htogether⟩ := parse_shapedFor Grammar.pairs hinput
  have hroots : fs.roots ≠ [] := by
    rintro heq
    rw [hfs] at hsome
    simp [Except.toOption, heq] at hsome
  obtain ⟨census, hcensus, h⟩ := htogether hroots
  exact ⟨hinput, fs, hfs, hroots, census, hcensus, h.minNodes_eq, h.maxNodes_eq, h.minDepth_le,
    h.maxDepth_le, h.le_two_pow⟩

end Parser

end ChartParsing
