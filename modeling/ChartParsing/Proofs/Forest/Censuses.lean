import ChartParsing.Forest.Census
import ChartParsing.Proofs.Forest.Unfolding
import ChartParsing.Proofs.PostOrder
import Mathlib.Data.List.Induction

/-!
# Taking censuses

The census of a node is that of the forest it stands for. It is taken in post-order over the nodes
below it, each of which is visited once, whatever has been taken before; so the censuses of all
roots together are those of the forests of the roots.

## Main definitions

* `TakenCensuses.CorrectFor`: the censuses taken so far are those of the forests of nodes.

## Main results

* `ForestGraph.lawful_censusTaker`: nodes can be visited after their children.
* `ForestGraph.census?_eq`: the census of a node.
* `SharedForests.censuses_eq`, `SharedForests.census?_eq`: the censuses of the roots.
-/

namespace ChartParsing

universe u

variable {K : Type u} {g : ForestGraph K} {taken : TakenCensuses}

theorem Forest.census_node (label : K) (alternatives : List (List (Forest K))) :
    (node label alternatives).census =
      .ofAlternatives (alternatives.map (List.map census)) :=
  fold_node _ label alternatives

/-! ### Censuses taken so far -/

namespace TakenCensuses

theorem census?_empty (nodes i : Nat) : (empty nodes).census? i = none := by
  rw [census?, empty, join_getElem?_replicate]

theorem census?_add {i : Nat} (hi : i < taken.censusOf.size) (census : Census) (j : Nat) :
    (taken.add i census).census? j = if i = j then some census else taken.census? j := by
  rw [census?, census?, add, join_getElem?_setIfInBounds hi]

/-- The censuses are those of the forests of nodes, complete with all below them. -/
structure CorrectFor (g : ForestGraph K) (taken : TakenCensuses) : Prop where
  /-- There is a place for every node. -/
  size_censusOf : taken.censusOf.size = g.size
  /-- The census of a node is that of its forest. -/
  census_eq : ∀ i census, taken.census? i = some census →
    ∃ f, g.forestAt? i = some f ∧ f.census = census
  /-- The census of a node is taken after those of its children. -/
  isSome_children : ∀ i, (taken.census? i).isSome → ∀ j ∈ g.children i, (taken.census? j).isSome

namespace CorrectFor

theorem empty (g : ForestGraph K) : CorrectFor g (.empty g.size) where
  size_censusOf := Array.size_replicate
  census_eq i census h := by rw [census?_empty] at h; cases h
  isSome_children i h := by rw [census?_empty] at h; cases h

theorem mapM_census? (h : CorrectFor g taken) {children : List Nat}
    (htaken : ∀ j ∈ children, (taken.census? j).isSome) :
    children.mapM taken.census? =
      some ((children.filterMap g.forestAt?).map Forest.census) :=
  mapM_eq_some_map_filterMap fun j hj => by
    obtain ⟨census, hcensus⟩ := Option.isSome_iff_exists.1 (htaken j hj)
    obtain ⟨f, hf, rfl⟩ := h.census_eq j census hcensus
    exact ⟨f, hf, hcensus⟩

theorem mapM_mapM_census? (h : CorrectFor g taken) {i : Nat} {n : ForestNode K}
    (hn : g.nodes[i]? = some n) (htaken : ∀ j ∈ g.children i, (taken.census? j).isSome) :
    n.alternatives.mapM (List.mapM taken.census?) =
      some ((n.alternatives.map (List.filterMap g.forestAt?)).map (List.map Forest.census)) := by
  rw [List.map_map]
  exact mapM_eq_some_map fun children hmem => h.mapM_census? fun j hj =>
    htaken j (ForestGraph.mem_children hn hmem hj)

/-- The census of a node may be added if those of its children are there. -/
theorem add (h : CorrectFor g taken) {i : Nat} {f : Forest K} (hf : g.forestAt? i = some f)
    (hchildren : ∀ j ∈ g.children i, (taken.census? j).isSome) :
    CorrectFor g (taken.add i f.census) := by
  have hi : i < taken.censusOf.size := by
    rw [h.size_censusOf, ← ForestGraph.isSome_forestAt?_iff, hf]
    rfl
  have hmore : ∀ j, (taken.census? j).isSome → ((taken.add i f.census).census? j).isSome :=
    fun j hj => by
      rw [census?_add hi]
      split
      · rfl
      · exact hj
  refine ⟨Array.size_setIfInBounds.trans h.size_censusOf, fun j census hj => ?_,
    fun j hj k hk => hmore k ?_⟩
  · rw [census?_add hi] at hj
    split at hj
    · next heq => exact ⟨f, heq ▸ hf, Option.some_inj.1 hj⟩
    · exact h.census_eq j census hj
  · rw [census?_add hi] at hj
    split at hj
    · next heq => exact hchildren k (heq ▸ hk)
    · exact h.isSome_children j hj k hk

end CorrectFor

end TakenCensuses

/-! ### Visits to nodes -/

namespace ForestGraph

open TakenCensuses

theorem takeCensus?_eq (h : CorrectFor g taken) {i : Nat} {f : Forest K}
    (hf : g.forestAt? i = some f) (hchildren : ∀ j ∈ g.children i, (taken.census? j).isSome) :
    g.takeCensus? taken i = some (taken.add i f.census) := by
  obtain ⟨n, hn, rfl⟩ := exists_node_of_forestAt?_eq_some hf
  rw [takeCensus?, hn, Option.bind_some, h.mapM_mapM_census? hn hchildren, Option.map_some,
    Forest.census_node]

/-- Nodes can be visited after their children. -/
theorem lawful_censusTaker (g : ForestGraph K) :
    g.censusTaker.Lawful g.size (CorrectFor g) fun _ _ => True where
  below_lt _ _ hj := lt_of_mem_children (List.mem_reverse.1 hj)
  refl _ := trivial
  trans _ _ := trivial
  isDone_below h hi j hj := h.isSome_children _ hi j (List.mem_reverse.1 hj)
  exists_visit? {taken i} h hi _ hchildren := by
    obtain ⟨f, hf⟩ := Option.isSome_iff_exists.1 (isSome_forestAt?_iff.2 hi)
    have htaken : ∀ j ∈ g.children i, (taken.census? j).isSome := fun j hj =>
      hchildren j (List.mem_reverse.2 hj)
    refine ⟨taken.add i f.census, takeCensus?_eq h hf htaken, h.add hf htaken, trivial,
      fun j => ?_⟩
    show ((taken.add i f.census).census? j).isSome ↔ (taken.census? j).isSome ∨ j = i
    rw [census?_add (h.size_censusOf ▸ hi)]
    by_cases heq : i = j
    · simp [heq]
    · simp [heq, Ne.symm heq]

/-- The census of a node can be taken, whatever has been taken before. -/
theorem exists_demandCensus?_eq_some (h : CorrectFor g taken) {i : Nat} {f : Forest K}
    (hf : g.forestAt? i = some f) :
    ∃ taken', g.demandCensus? taken i = some (taken', f.census) ∧ CorrectFor g taken' := by
  have hi : i < g.size := by
    rw [← isSome_forestAt?_iff, hf]
    rfl
  obtain ⟨taken', hrun, hvisited⟩ := g.lawful_censusTaker.exists_visitFrom?_eq_some hi h
  obtain ⟨census, hcensus⟩ :=
    Option.isSome_iff_exists.1 ((hvisited.isDone_iff i).2 (.inr (.refl i)))
  obtain ⟨f', hf', rfl⟩ := hvisited.valid.census_eq i census hcensus
  cases hf.symm.trans hf'
  refine ⟨taken', ?_, hvisited.valid⟩
  rw [demandCensus?, hrun, Option.bind_some, hcensus]
  rfl

/-- The census of a node is that of its forest. -/
theorem census?_eq {i : Nat} {f : Forest K} (hf : g.forestAt? i = some f) :
    g.census? i = some f.census := by
  obtain ⟨_, hdemand, -⟩ := exists_demandCensus?_eq_some (.empty g) hf
  rw [census?, hdemand]
  rfl

/-- Censuses can be taken one after another. -/
theorem exists_demandCensuses?_eq_some (h : CorrectFor g taken) {numbers : List Nat}
    (hlt : ∀ i ∈ numbers, i < g.size) :
    ∃ taken', g.demandCensuses? taken numbers =
      some (taken', (numbers.filterMap g.forestAt?).map Forest.census) ∧ CorrectFor g taken' := by
  induction numbers using List.reverseRecOn with
  | nil => exact ⟨taken, rfl, h⟩
  | append_singleton numbers i ih =>
    rw [List.forall_mem_append, List.forall_mem_singleton] at hlt
    obtain ⟨taken', hdemands, h'⟩ := ih hlt.1
    obtain ⟨f, hf⟩ := Option.isSome_iff_exists.1 (isSome_forestAt?_iff.2 hlt.2)
    obtain ⟨taken'', hdemand, h''⟩ := exists_demandCensus?_eq_some h' hf
    refine ⟨taken'', ?_, h''⟩
    rw [demandCensuses?] at hdemands ⊢
    rw [List.foldlM_append, hdemands]
    simp [hdemand, hf]

end ForestGraph

namespace SharedForests

/-- The censuses of the roots are those of the forests that the roots stand for. -/
theorem censuses_eq (fs : SharedForests K) : fs.censuses = fs.toForests.map Forest.census := by
  have hroot : ∀ r ∈ fs.roots,
      fs.graph.census? r = (fs.graph.forestAt? r).map Forest.census := fun r hr => by
    obtain ⟨f, hf⟩ := exists_forestAt?_of_mem_roots hr
    rw [ForestGraph.census?_eq hf, hf]
    rfl
  rw [censuses, List.filterMap_congr hroot, ← List.map_filterMap]
  rfl

/-- The census of all roots together is that of a choice between their forests. -/
theorem census?_eq (fs : SharedForests K) :
    fs.census? = Census.choice? (fs.toForests.map Forest.census) := by
  obtain ⟨_, hdemands, -⟩ := ForestGraph.exists_demandCensuses?_eq_some
    (.empty fs.graph) fs.roots_lt
  rw [census?, hdemands]
  rfl

theorem exists_census?_eq_some {fs : SharedForests K} (h : fs.roots ≠ []) :
    ∃ census, fs.census? = some census := by
  obtain ⟨f, rest, hforests⟩ := List.exists_cons_of_ne_nil (toForests_ne_nil h)
  exact ⟨_, fs.census?_eq.trans (by rw [hforests]; rfl)⟩

end SharedForests

end ChartParsing
