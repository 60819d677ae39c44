import ChartParsing.Proofs.Choices
import ChartParsing.Proofs.Forest.Censuses
import ChartParsing.Proofs.Forest.Trees
import Mathlib.Algebra.Order.BigOperators.GroupWithZero.List
import Mathlib.Algebra.Order.Ring.Nat

/-!
# Ways are trees

A census counts the ways through a forest, unless there are more than a count can hold: a choice of
alternatives adds up, children side by side multiply. The partial sums and products on the way to
the number of ways are no larger than it, since there is a way through every part: a partial result
that cannot be held means that the number itself cannot be held either. The ways through a forest
are its trees, but a leaf is one tree and has a way for each of its alternatives, so for this a leaf
may have one alternative at most.

## Main definitions

* `Forest.wayCount`: the number of ways, however large.
* `Forest.SingleLeaves`, `SharedForests.SingleLeaves`: a leaf has at most one alternative.

## Main results

* `checkedAdd?_checked?`, `checkedMul?_checked?`: a checked result of checked numbers is that of the
  numbers.
* `Forest.wayCount_pos`: there is a way through every forest.
* `Forest.ways_census`: a census counts the ways through a forest.
* `Forest.SingleLeaves.ways_census`: the ways through a forest are its trees.
* `SharedForests.ways_count_trees`: the same for the censuses that are taken of shared forests.
-/

namespace ChartParsing

universe u

/-! ### Checked numbers -/

theorem checked?_eq_ite (n : Nat) : checked? n = if n < 2 ^ 64 then some n else none := by
  rw [checked?, maxCount]
  exact if_congr (by omega) rfl rfl

/-- A sum that cannot be held has a summand that cannot be held or a sum that cannot be held. -/
theorem checkedAdd?_checked? (a b : Nat) :
    checkedAdd? (checked? a) (checked? b) = checked? (a + b) := by
  by_cases ha : a ≤ maxCount
  · by_cases hb : b ≤ maxCount
    · simp [checkedAdd?, checked?, ha, hb]
    · have hsum : ¬a + b ≤ maxCount := by omega
      simp [checkedAdd?, checked?, hb, hsum]
  · have hsum : ¬a + b ≤ maxCount := by omega
    simp [checkedAdd?, checked?, ha, hsum]

/-- The same for products, where no factor is zero. -/
theorem checkedMul?_checked? {a b : Nat} (ha : 0 < a) (hb : 0 < b) :
    checkedMul? (checked? a) (checked? b) = checked? (a * b) := by
  have hleft : a ≤ a * b := Nat.le_mul_of_pos_right a hb
  have hright : b ≤ a * b := Nat.le_mul_of_pos_left b ha
  by_cases ha' : a ≤ maxCount
  · by_cases hb' : b ≤ maxCount
    · simp [checkedMul?, checked?, ha', hb']
    · have hprod : ¬a * b ≤ maxCount := by omega
      simp [checkedMul?, checked?, hb', hprod]
  · have hprod : ¬a * b ≤ maxCount := by omega
    simp [checkedMul?, checked?, ha', hprod]

/-! ### Ways of censuses -/

namespace Census

variable {α : Type u} {l : List α} {censusOf : α → Census} {countOf : α → Nat}

private theorem ways_foldl_or {a : Census} {n : Nat} (ha : a.ways = checked? n)
    (hl : ∀ x ∈ l, (censusOf x).ways = checked? (countOf x)) :
    ((l.map censusOf).foldl or a).ways = checked? (n + (l.map countOf).sum) := by
  induction l generalizing a n with
  | nil => exact ha
  | cons x l ih =>
    rw [List.forall_mem_cons] at hl
    have hor : (a.or (censusOf x)).ways = checked? (n + countOf x) := by
      rw [or, ha, hl.1, checkedAdd?_checked?]
    rw [List.map_cons, List.foldl_cons, ih hor hl.2, List.map_cons, List.sum_cons, Nat.add_assoc]

theorem exists_choice?_eq_some (hne : l ≠ [])
    (hl : ∀ x ∈ l, (censusOf x).ways = checked? (countOf x)) :
    ∃ census, choice? (l.map censusOf) = some census ∧
      census.ways = checked? (l.map countOf).sum := by
  cases l with
  | nil => exact absurd rfl hne
  | cons x l =>
    rw [List.forall_mem_cons] at hl
    exact ⟨_, rfl, ways_foldl_or hl.1 hl.2⟩

private theorem ways_foldl_beside {a : Census} {n : Nat} (hn : 0 < n) (ha : a.ways = checked? n)
    (hpos : ∀ x ∈ l, 0 < countOf x) (hl : ∀ x ∈ l, (censusOf x).ways = checked? (countOf x)) :
    ((l.map censusOf).foldl beside a).ways = checked? (n * (l.map countOf).prod) := by
  induction l generalizing a n with
  | nil => simpa using ha
  | cons x l ih =>
    rw [List.forall_mem_cons] at hl hpos
    have hbeside : (a.beside (censusOf x)).ways = checked? (n * countOf x) := by
      rw [beside, ha, hl.1, checkedMul?_checked? hn hpos.1]
    rw [List.map_cons, List.foldl_cons, ih (Nat.mul_pos hn hpos.1) hbeside hpos.2 hl.2,
      List.map_cons, List.prod_cons, Nat.mul_assoc]

theorem ways_ofChildren (hpos : ∀ x ∈ l, 0 < countOf x)
    (hl : ∀ x ∈ l, (censusOf x).ways = checked? (countOf x)) :
    (ofChildren (l.map censusOf)).ways = checked? (l.map countOf).prod := by
  cases l with
  | nil => rfl
  | cons x l =>
    rw [List.forall_mem_cons] at hl hpos
    exact ways_foldl_beside hpos.1 hl.1 hpos.2 hl.2

end Census

variable {K : Type u}

/-! ### Ways through forests -/

namespace Forest

/-- The number of ways through a forest: in one of its alternatives, through each child. There is
one way through a forest without alternatives. -/
def wayCount (f : Forest K) : Nat :=
  f.fold fun _ alternatives =>
    if alternatives.isEmpty then 1 else (alternatives.map List.prod).sum

theorem wayCount_node (label : K) (alternatives : List (List (Forest K))) :
    (node label alternatives).wayCount = if alternatives.isEmpty then 1 else
      (alternatives.map fun children => (children.map wayCount).prod).sum := by
  rw [wayCount, fold_node, List.isEmpty_map, List.map_map]
  rfl

theorem prod_wayCount_pos {children : List (Forest K)}
    (h : ∀ child ∈ children, 0 < child.wayCount) : 0 < (children.map wayCount).prod := by
  refine List.prod_pos fun n hn => ?_
  obtain ⟨child, hchild, rfl⟩ := List.mem_map.1 hn
  exact h child hchild

/-- There is a way through every forest. -/
theorem wayCount_pos (f : Forest K) : 0 < f.wayCount := by
  induction f using forall_of_children with
  | step label alternatives ih =>
    rw [wayCount_node]
    match alternatives, ih with
    | [], _ => exact Nat.one_pos
    | children :: rest, ih =>
      rw [List.isEmpty_cons, if_neg Bool.false_ne_true, List.map_cons, List.sum_cons]
      exact Nat.add_pos_left (prod_wayCount_pos (ih children List.mem_cons_self)) _

/-- A census counts the ways through a forest, as far as they are a count. -/
theorem ways_census (f : Forest K) : f.census.ways = checked? f.wayCount := by
  induction f using forall_of_children with
  | step label alternatives ih =>
    rw [census_node, wayCount_node]
    by_cases hne : alternatives = []
    · rw [hne]
      rfl
    have hways : ∀ children ∈ alternatives, (Census.ofChildren (children.map census)).ways =
        checked? (children.map wayCount).prod := fun children hmem =>
      Census.ways_ofChildren (fun child _ => child.wayCount_pos) (ih children hmem)
    obtain ⟨total, htotal, htotalWays⟩ := Census.exists_choice?_eq_some hne hways
    rw [Census.ofAlternatives, List.map_map, List.isEmpty_eq_false_iff.2 hne,
      if_neg Bool.false_ne_true, ← htotalWays]
    exact congrArg Census.ways (congrArg (Option.getD · Census.leaf) htotal)

end Forest

/-! ### Ways are trees -/

/-- A forest without children has at most one alternative, and so has each part of it. -/
inductive Forest.SingleLeaves : Forest K → Prop where
  /-- A leaf has no choice of alternatives. -/
  | node {label : K} {alternatives : List (List (Forest K))}
      (single : (Forest.node label alternatives).isLeaf → alternatives.length ≤ 1)
      (each : ∀ children ∈ alternatives, ∀ child ∈ children, SingleLeaves child) :
      SingleLeaves (.node label alternatives)

/-- No leaf below the roots has more than one alternative. -/
def SharedForests.SingleLeaves (fs : SharedForests K) : Prop :=
  ∀ r ∈ fs.roots, ∀ i, Reaches fs.graph.children r i → ∀ n, fs.graph.nodes[i]? = some n →
    n.isLeaf → n.alternatives.length ≤ 1

namespace Forest

theorem length_trees_node {label : K} {alternatives : List (List (Forest K))}
    (h : ¬(node label alternatives).isLeaf) :
    (node label alternatives).trees.length =
      (alternatives.map fun children =>
        (children.map fun child => child.trees.length).prod).sum := by
  rw [trees_node_of_not_isLeaf h, List.length_flatMap]
  congr 1
  refine List.map_congr_left fun children _ => ?_
  rw [List.length_map, length_choices, List.map_map, List.prod_eq_foldr]
  rfl

theorem wayCount_of_isLeaf {label : K} {alternatives : List (List (Forest K))}
    (h : (node label alternatives).isLeaf) (hone : alternatives.length ≤ 1) :
    (node label alternatives).wayCount = 1 := by
  rw [wayCount_node]
  match alternatives, h, hone with
  | [], _, _ => rfl
  | [[]], _, _ => rfl

/-- The ways through a forest are its trees. -/
theorem SingleLeaves.wayCount_eq {f : Forest K} (h : f.SingleLeaves) :
    f.wayCount = f.trees.length := by
  induction h with
  | @node label alternatives single _ ih =>
    by_cases hleaf : (Forest.node label alternatives).isLeaf
    · rw [wayCount_of_isLeaf hleaf (single hleaf), trees_of_isLeaf hleaf, List.length_singleton]
    have hne : alternatives ≠ [] := by
      rintro rfl
      exact hleaf rfl
    have hprod : ∀ children ∈ alternatives, (children.map wayCount).prod =
        (children.map fun child => child.trees.length).prod := fun children hmem =>
      congrArg List.prod (List.map_congr_left (ih children hmem))
    rw [length_trees_node hleaf, wayCount_node, List.isEmpty_eq_false_iff.2 hne,
      if_neg Bool.false_ne_true, List.map_congr_left hprod]

/-- A census counts the trees of a forest, of which there is at least one. -/
theorem SingleLeaves.ways_census {f : Forest K} (h : f.SingleLeaves) :
    0 < f.trees.length ∧ f.census.ways = checked? f.trees.length := by
  rw [← h.wayCount_eq]
  exact ⟨f.wayCount_pos, f.ways_census⟩

end Forest

namespace SharedForests

theorem SingleLeaves.of_mem_roots {fs : SharedForests K} (h : fs.SingleLeaves) {r : Nat}
    (hr : r ∈ fs.roots) {f : Forest K} (hf : fs.graph.forestAt? r = some f) : f.SingleLeaves := by
  refine ForestGraph.forall_forestAt?_of_reaches (fun i n hreach hn ih => .node ?_ ih) (.refl r) hf
  intro hleaf
  rw [List.length_map]
  refine h r hr i hreach n hn (List.all_eq_true.2 fun children hmem => ?_)
  have hempty := List.all_eq_true.1 hleaf _ (List.mem_map_of_mem hmem)
  rw [List.isEmpty_iff, ForestGraph.filterMap_forestAt?_eq_nil_iff hn hmem] at hempty
  rw [hempty]
  rfl

/-- **The ways of a census are the trees of the forest.** If no leaf below the roots has more than
one alternative, the census of each root can be taken, and its ways are the number of trees that the
root stands for, or unknown if there are `2 ^ 64` trees or more. The same holds of all roots
together and the sum of their numbers of trees. There is at least one tree for each root. -/
theorem ways_count_trees {fs : SharedForests K} (h : fs.SingleLeaves) :
    (∀ r ∈ fs.roots, ∃ census f, fs.graph.census? r = some census ∧
      fs.graph.forestAt? r = some f ∧ 0 < f.trees.length ∧
      census.ways = if f.trees.length < 2 ^ 64 then some f.trees.length else none) ∧
    (fs.roots ≠ [] → ∃ census, fs.census? = some census ∧
      census.ways = if (fs.trees.map List.length).sum < 2 ^ 64
        then some (fs.trees.map List.length).sum else none) := by
  constructor
  · intro r hr
    obtain ⟨f, hf⟩ := exists_forestAt?_of_mem_roots hr
    obtain ⟨hpos, hways⟩ := (h.of_mem_roots hr hf).ways_census
    exact ⟨_, f, ForestGraph.census?_eq hf, hf, hpos, hways.trans (checked?_eq_ite _)⟩
  · intro hroots
    have hne := toForests_ne_nil hroots
    have hways : ∀ f ∈ fs.toForests, f.census.ways = checked? f.trees.length := fun f hf => by
      obtain ⟨r, hr, hforest⟩ := mem_toForests.1 hf
      exact (h.of_mem_roots hr hforest).ways_census.2
    obtain ⟨census, hcensus, htotal⟩ := Census.exists_choice?_eq_some hne hways
    refine ⟨census, fs.census?_eq.trans hcensus, ?_⟩
    rw [htotal, checked?_eq_ite, trees, List.map_map]
    rfl

/-- A choice between two leaves, with 63 and with 64 of these choices side by side. -/
def sharedPowers : SharedForests Char :=
  .ofRoots (.ofNodes [⟨'A', [[]]⟩, ⟨'B', [[0], [0]]⟩, ⟨'S', [List.replicate 63 1]⟩,
    ⟨'S', [List.replicate 64 1]⟩]) [2, 3]

private theorem singleLeaves_sharedPowers : sharedPowers.SingleLeaves := by
  have hnodes : ∀ n ∈ sharedPowers.graph.nodes, n.isLeaf → n.alternatives.length ≤ 1 := by
    decide +kernel
  intro r _ i _ n hn
  exact hnodes n (Array.mem_of_getElem? hn)

/-- There are `2 ^ 63` trees below the one root, which a census counts, and too many below the other
one and below both together. -/
theorem ways_count_trees_sharedPowers :
    sharedPowers.SingleLeaves ∧ sharedPowers.roots = [2, 3] ∧
      (∃ f, sharedPowers.graph.forestAt? 2 = some f ∧ f.trees.length = 2 ^ 63) ∧
      (∃ f, sharedPowers.graph.forestAt? 3 = some f ∧ 2 ^ 64 ≤ f.trees.length) ∧
      2 ^ 64 ≤ (sharedPowers.trees.map List.length).sum := by
  have hroots : sharedPowers.roots = [2, 3] := by decide +kernel
  have hfirst : (sharedPowers.graph.census? 2).map Census.ways = some (some (2 ^ 63)) := by
    decide +kernel
  have hsecond : (sharedPowers.graph.census? 3).map Census.ways = some none := by decide +kernel
  have hall : sharedPowers.census?.map Census.ways = some none := by decide +kernel
  obtain ⟨heach, htogether⟩ := ways_count_trees singleLeaves_sharedPowers
  rw [hroots] at heach htogether
  obtain ⟨_, f, hcensus, hf, -, hways⟩ := heach 2 (by decide)
  obtain ⟨_, f', hcensus', hf', -, hways'⟩ := heach 3 (by decide)
  obtain ⟨_, hcensus'', hways''⟩ := htogether (by decide)
  rw [hcensus, Option.map_some, hways, Option.some_inj] at hfirst
  rw [hcensus', Option.map_some, hways', Option.some_inj] at hsecond
  rw [hcensus'', Option.map_some, hways'', Option.some_inj] at hall
  refine ⟨singleLeaves_sharedPowers, hroots, ⟨f, hf, ?_⟩, ⟨f', hf', ?_⟩, ?_⟩
  · split at hfirst
    · exact Option.some_inj.1 hfirst
    · cases hfirst
  · split at hsecond
    · cases hsecond
    · omega
  · split at hall
    · cases hall
    · omega

end SharedForests

end ChartParsing
