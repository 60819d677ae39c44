import ChartParsing.Proofs.Forest.Permutations

/-!
# Censuses and sharing

The census of a node is taken with the use of what has been taken before, by visits that pass over
every shared part but once. It is the census that the recursion on the forest gives, so it does not
matter how a forest is shared, what else is in its table, or in which order the roots come.

## Main results

* `SharedForests.census_ignores_sharing`: censuses are those of the unshared forests.
-/

namespace ChartParsing

universe u

open scoped List

namespace SharedForests

variable {K : Type u}

theorem mapM_census? (fs : SharedForests K) :
    fs.roots.mapM fs.graph.census? = some (fs.toForests.map Forest.census) :=
  mapM_eq_some_map_filterMap fun _ hr =>
    (exists_forestAt?_of_mem_roots hr).imp fun _ hf => ⟨hf, ForestGraph.census?_eq hf⟩

theorem perm_toForests_ofRoots {fs : SharedForests K} {roots : List Nat} (h : roots ~ fs.roots) :
    (ofRoots fs.graph roots).toForests ~ fs.toForests := by
  rw [toForests_ofRoots]
  exact h.filterMap fs.graph.forestAt?

theorem census?_eq_of_perm {fs fs' : SharedForests K} (h : fs.toForests ~ fs'.toForests) :
    fs.census? = fs'.census? := by
  rw [census?_eq, census?_eq, Census.choice?_eq_of_perm (h.map Forest.census)]

/-- **Sharing does not change a census.** In every table the census of a node can be taken, and it
is that of the unshared forest. So two nodes with the same forest have the same census, also in
different tables. For all roots together, where a census that has been taken is used again, the
census of each root is the one that is taken on its own, and the result is that of a choice between
them. There is none only if there are no roots, and it is the same for all shared forests with the
same forests in some order, so in particular for the roots in another order. -/
theorem census_ignores_sharing (fs : SharedForests K) :
    (∀ (g : ForestGraph K) i f, g.forestAt? i = some f → g.census? i = some f.census) ∧
    (∀ (g g' : ForestGraph K) i j f, g.forestAt? i = some f → g'.forestAt? j = some f →
      g.census? i = g'.census? j) ∧
    (∃ taken censuses, fs.roots.mapM fs.graph.census? = some censuses ∧
      fs.graph.demandCensuses? (.empty fs.graph.size) fs.roots = some (taken, censuses) ∧
      fs.census? = Census.choice? censuses) ∧
    (fs.census? = none ↔ fs.roots = []) ∧
    (∀ roots, roots ~ fs.roots → (ofRoots fs.graph roots).census? = fs.census?) ∧
    ∀ fs' : SharedForests K, fs'.toForests ~ fs.toForests → fs'.census? = fs.census? := by
  refine ⟨fun g i f hf => ForestGraph.census?_eq hf, fun g g' i j f hf hf' => ?_, ?_, ?_,
    fun roots hroots => census?_eq_of_perm (perm_toForests_ofRoots hroots),
    fun fs' h => census?_eq_of_perm h⟩
  · rw [ForestGraph.census?_eq hf, ForestGraph.census?_eq hf']
  · obtain ⟨taken, hdemands, -⟩ := ForestGraph.exists_demandCensuses?_eq_some
      (.empty fs.graph) fs.roots_lt
    exact ⟨taken, _, fs.mapM_census?, hdemands, fs.census?_eq⟩
  · constructor
    · intro hnone
      by_contra hroots
      obtain ⟨census, hcensus⟩ := exists_census?_eq_some hroots
      cases hnone.symm.trans hcensus
    · intro hroots
      rw [census?_eq, toForests, atRoots, hroots]
      rfl

/-- A forest with shared parts, as a root twice. -/
def sharedTwice : SharedForests Char :=
  .ofRoots (.ofNodes [⟨'a', [[]]⟩, ⟨'T', [[0], [0, 0]]⟩, ⟨'S', [[1, 1], []]⟩]) [2, 1, 2]

/-- The same forests in another order, where nothing is shared but the leaves, and an `a` without
alternatives that is below no root. -/
def hardlyShared : SharedForests Char :=
  .ofRoots (.ofNodes [⟨'a', [[]]⟩, ⟨'a', []⟩, ⟨'T', [[0], [0, 0]]⟩, ⟨'T', [[0], [0, 0]]⟩,
    ⟨'T', [[0], [0, 0]]⟩, ⟨'S', [[2, 3], []]⟩, ⟨'S', [[3, 4], []]⟩]) [4, 5, 6]

/-- The forest for `S` has the same census in both tables, and so have all three forests together,
which is a choice between five, two and five trees. -/
theorem census_ignores_sharing_sharedTwice :
    sharedTwice.graph.census? 2 = hardlyShared.graph.census? 6 ∧
      hardlyShared.census? = sharedTwice.census? ∧
      sharedTwice.census? =
        Census.choice? [⟨0, 3, 0, 2, some 5⟩, ⟨1, 1, 1, 1, some 2⟩, ⟨0, 3, 0, 2, some 5⟩] := by
  obtain ⟨-, hnodes, ⟨_, _, hseparate, -, htogether⟩, -, -, hperm⟩ :=
    census_ignores_sharing sharedTwice
  have hsame : sharedTwice.graph.forestAt? 2 = hardlyShared.graph.forestAt? 6 := rfl
  obtain ⟨f, hf⟩ : ∃ f, sharedTwice.graph.forestAt? 2 = some f := ⟨_, rfl⟩
  have hforests : hardlyShared.toForests ~ sharedTwice.toForests := .swap ..
  have hcensuses : sharedTwice.roots.mapM sharedTwice.graph.census? =
      some [⟨0, 3, 0, 2, some 5⟩, ⟨1, 1, 1, 1, some 2⟩, ⟨0, 3, 0, 2, some 5⟩] := by
    decide +kernel
  cases hseparate.symm.trans hcensuses
  exact ⟨hnodes _ _ 2 6 f hf (hsame ▸ hf), hperm _ hforests, htogether⟩

end SharedForests

end ChartParsing
