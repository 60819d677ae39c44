import ChartParsing.Proofs.Forest.Bounds
import Mathlib.Data.Set.Card
import Mathlib.Order.Interval.Finset.Nat

/-!
# Heights are counts

A height is not guarded against overflow the way a number of nodes is: the heights below a node are
increased by one as they are. This is safe, since a forest is higher than each of its children, so
the objects that are met on the way down from it are distinct, and the largest height is at most the
number of objects with children that can be reached. A table of fewer than `2 ^ 64` objects has room
for no larger height, although it may stand for more nodes and more trees than can be counted.

## Main definitions

* `ForestGraph.branching`: the objects with children that can be reached from a node.
* `Census.under?`, `Census.ofChildren?`, `Census.ofAlternatives?`: censuses that are lost if a
  height passes the largest count.
* `ForestGraph.takeCheckedCensus?`, `ForestGraph.checkedCensus?`, `SharedForests.checkedCensus?`:
  the censuses of nodes and of all roots together, computed with these.

## Main results

* `Forest.maxDepth_census_le_iff`: the largest height is bounded as those of the children are.
* `ForestGraph.maxDepth_census_le_encard`: it is at most the number of objects with children.
* `ForestGraph.checkedDemand?_eq`: where heights are counts, no census is lost.
* `SharedForests.census?_depths`: the heights of censuses, and that none of them overflows.
-/

namespace ChartParsing

universe u

variable {K : Type u}

/-! ### Largest heights -/

namespace Census

/-- Censuses that are joined one after another, as alternatives or side by side, are as high as the
highest of them. -/
theorem maxDepth_foldl_le_iff {join : Census → Census → Census}
    (hjoin : ∀ a b, (join a b).maxDepth = max a.maxDepth b.maxDepth) {a : Census}
    {l : List Census} {k : Nat} :
    (l.foldl join a).maxDepth ≤ k ↔ a.maxDepth ≤ k ∧ ∀ c ∈ l, c.maxDepth ≤ k := by
  induction l generalizing a with
  | nil => simp
  | cons c l ih => rw [List.foldl_cons, ih, hjoin, Nat.max_le, List.forall_mem_cons, and_assoc]

/-- An alternative is higher than each of its children, and no higher than it has to be. -/
theorem maxDepth_ofChildren_le_iff {l : List Census} {k : Nat} :
    (ofChildren l).maxDepth ≤ k ↔ ∀ c ∈ l, c.maxDepth < k := by
  cases l with
  | nil => simp [ofChildren, leaf]
  | cons a rest =>
    show (rest.foldl beside a).maxDepth + 1 ≤ k ↔ _
    cases k with
    | zero =>
      exact iff_of_false (Nat.not_succ_le_zero _) fun h => Nat.not_lt_zero _ (h a (by simp))
    | succ k =>
      rw [Nat.add_le_add_iff_right, maxDepth_foldl_le_iff fun _ _ => rfl]
      simp only [List.forall_mem_cons, Nat.lt_succ_iff]

theorem maxDepth_ofAlternatives_le_iff {alternatives : List (List Census)} {k : Nat} :
    (ofAlternatives alternatives).maxDepth ≤ k ↔
      ∀ l ∈ alternatives, (ofChildren l).maxDepth ≤ k := by
  cases alternatives with
  | nil => simp [ofAlternatives, choice?, leaf]
  | cons l rest =>
    show ((rest.map ofChildren).foldl or (ofChildren l)).maxDepth ≤ k ↔ _
    rw [maxDepth_foldl_le_iff fun _ _ => rfl, List.forall_mem_map, List.forall_mem_cons]

end Census

/-- The largest height of a forest is at most `k` if those of its children are smaller. -/
theorem Forest.maxDepth_census_le_iff {label : K} {alternatives : List (List (Forest K))}
    {k : Nat} :
    (node label alternatives).census.maxDepth ≤ k ↔
      ∀ children ∈ alternatives, ∀ child ∈ children, child.census.maxDepth < k := by
  rw [census_node, Census.maxDepth_ofAlternatives_le_iff, List.forall_mem_map]
  simp only [Census.maxDepth_ofChildren_le_iff, List.forall_mem_map]

/-! ### Objects on the way down -/

namespace ForestGraph

variable {g : ForestGraph K} {i : Nat}

/-- The objects that can be reached from a node and have an alternative with children. -/
def branching (g : ForestGraph K) (i : Nat) : Set Nat :=
  {j | Reaches g.children i j ∧
    ∃ n, g.nodes[j]? = some n ∧ ∃ children ∈ n.alternatives, children ≠ []}

private theorem branching_subset_of_mem_children {c : Nat} (hc : c ∈ g.children i) :
    g.branching c ⊆ g.branching i :=
  fun _ hj => ⟨.step hc hj.1, hj.2⟩

private theorem finite_branching (g : ForestGraph K) (i : Nat) : (g.branching i).Finite :=
  (Set.finite_Iic i).subset fun _ hj => hj.1.le fun _ _ => lt_of_mem_children

/-- There is one more object to a node than to its child, the node itself. -/
theorem encard_branching_add_one_le {c : Nat} (hc : c ∈ g.children i) :
    (g.branching c).encard + 1 ≤ (g.branching i).encard := by
  have hnot : i ∉ g.branching c := by
    intro hi
    have hle : i ≤ c := hi.1.le fun _ _ => lt_of_mem_children
    have hlt : c < i := lt_of_mem_children hc
    omega
  have hself : i ∈ g.branching i := by
    obtain ⟨n, hn⟩ := exists_node_of_mem_children hc
    rw [children_eq hn] at hc
    obtain ⟨children, hmem, hchild⟩ := List.mem_flatten.1 hc
    exact ⟨.refl i, n, hn, children, hmem, List.ne_nil_of_mem hchild⟩
  rw [← Set.encard_insert_of_notMem hnot]
  exact Set.encard_le_encard
    (Set.insert_subset hself (branching_subset_of_mem_children hc))

/-- The largest height is at most the number of objects with children. -/
theorem maxDepth_census_le_encard {f : Forest K} (hf : g.forestAt? i = some f) :
    (f.census.maxDepth : ℕ∞) ≤ (g.branching i).encard := by
  induction i using Nat.strongRecOn generalizing f with
  | ind i ih =>
    obtain ⟨k, hk⟩ := (g.finite_branching i).exists_encard_eq_coe
    obtain ⟨n, hn, rfl⟩ := exists_node_of_forestAt?_eq_some hf
    rw [hk, Nat.cast_le, Forest.maxDepth_census_le_iff, List.forall_mem_map]
    intro children hmem child hchild
    obtain ⟨c, hc, hchild⟩ := List.mem_filterMap.1 hchild
    have hc := mem_children hn hmem hc
    have hlt : ((child.census.maxDepth + 1 : Nat) : ℕ∞) ≤ k :=
      calc ((child.census.maxDepth + 1 : Nat) : ℕ∞) = child.census.maxDepth + 1 := Nat.cast_succ _
        _ ≤ (g.branching c).encard + 1 := by gcongr; exact ih c (lt_of_mem_children hc) hchild
        _ ≤ (g.branching i).encard := encard_branching_add_one_le hc
        _ = k := hk
    exact Nat.cast_le.1 hlt

/-- Where fewer than `2 ^ 64` objects can be reached, the height of each of them is a count. -/
theorem maxDepth_census_le_maxCount {j : Nat} (hreach : Reaches g.children i j) {f : Forest K}
    (hf : g.forestAt? j = some f) (hfew : {k | Reaches g.children i k}.encard < 2 ^ 64) :
    f.census.maxDepth ≤ maxCount := by
  have hsubset : g.branching j ⊆ {k | Reaches g.children i k} := fun _ hk => hreach.trans hk.1
  have hlt : (f.census.maxDepth : ℕ∞) < (2 ^ 64 : Nat) :=
    calc (f.census.maxDepth : ℕ∞) ≤ (g.branching j).encard := maxDepth_census_le_encard hf
      _ ≤ {k | Reaches g.children i k}.encard := Set.encard_le_encard hsubset
      _ < (2 ^ 64 : Nat) := by exact_mod_cast hfew
  have hlt' : f.census.maxDepth < 2 ^ 64 := Nat.cast_lt.1 hlt
  rw [maxCount]
  omega

end ForestGraph

/-! ### Checked heights -/

namespace Census

/-- The census of what lies below, put under one node, if its heights are counts. -/
def under? (a : Census) : Option Census :=
  (checked? (a.minDepth + 1)).bind fun minDepth =>
    (checked? (a.maxDepth + 1)).map fun maxDepth =>
      { a.under with minDepth := minDepth, maxDepth := maxDepth }

/-- The census of an alternative with the given children, if its heights are counts. -/
def ofChildren? : List Census → Option Census
  | [] => some leaf
  | a :: rest => (rest.foldl beside a).under?

/-- The census of a forest whose children have the given censuses, if the heights of its
alternatives are counts. -/
def ofAlternatives? (alternatives : List (List Census)) : Option Census :=
  (alternatives.mapM ofChildren?).map fun censuses => (choice? censuses).getD leaf

private theorem under?_eq_ite (a : Census) :
    a.under? = if a.minDepth < maxCount ∧ a.maxDepth < maxCount then some a.under else none := by
  by_cases hmin : a.minDepth < maxCount
  · by_cases hmax : a.maxDepth < maxCount
    · simp [under?, checked?, hmin, hmax, under]
    · simp [under?, checked?, hmin, hmax]
  · simp [under?, checked?, hmin]

private theorem ofChildren?_eq {l : List Census}
    (hle : (ofChildren l).minDepth ≤ (ofChildren l).maxDepth)
    (hmax : (ofChildren l).maxDepth ≤ maxCount) : ofChildren? l = some (ofChildren l) := by
  cases l with
  | nil => rfl
  | cons a rest =>
    have hlt : (rest.foldl beside a).maxDepth < maxCount := hmax
    have hle' : (rest.foldl beside a).minDepth ≤ (rest.foldl beside a).maxDepth :=
      Nat.le_of_succ_le_succ hle
    exact (under?_eq_ite _).trans (if_pos ⟨Nat.lt_of_le_of_lt hle' hlt, hlt⟩)

private theorem ofAlternatives?_eq {alternatives : List (List Census)}
    (h : ∀ l ∈ alternatives, ofChildren? l = some (ofChildren l)) :
    ofAlternatives? alternatives = some (ofAlternatives alternatives) := by
  rw [ofAlternatives?, mapM_eq_some_map h]
  rfl

end Census

/-- The census of a forest is not lost if its largest height is a count. -/
theorem Forest.ofAlternatives?_census {label : K} {alternatives : List (List (Forest K))}
    (hmax : (node label alternatives).census.maxDepth ≤ maxCount) :
    Census.ofAlternatives? (alternatives.map (List.map census)) =
      some (node label alternatives).census := by
  rw [census_node] at hmax ⊢
  rw [Census.maxDepth_ofAlternatives_le_iff] at hmax
  refine Census.ofAlternatives?_eq fun l hl => Census.ofChildren?_eq ?_ (hmax l hl)
  obtain ⟨children, -, rfl⟩ := List.mem_map.1 hl
  have hattains : ∀ b : Census.Bound, b.Attains (.ofChildren (children.map census))
      ((choices (children.map trees)).map (.node label)) := fun b =>
    Census.Bound.attains_ofChildren label fun child _ => child.attains_census b
  exact Census.minDepth_le_maxDepth (hattains .minDepth) (hattains .maxDepth)

/-! ### Checked censuses of nodes -/

namespace ForestGraph

/-- Take the census of one node, checking its heights. -/
def takeCheckedCensus? (g : ForestGraph K) (taken : TakenCensuses) (number : Nat) :
    Option TakenCensuses :=
  g.nodes[number]?.bind fun n =>
    (n.alternatives.mapM (List.mapM taken.census?)).bind fun alternatives =>
      (Census.ofAlternatives? alternatives).map (taken.add number)

/-- The visits that take the censuses of nodes, checking their heights. -/
def checkedCensusTaker (g : ForestGraph K) : PostOrder TakenCensuses :=
  { g.censusTaker with visit? := g.takeCheckedCensus? }

/-- The census of a node, with the censuses of all nodes below it, if no height passes the largest
count. -/
def checkedDemand? (g : ForestGraph K) (taken : TakenCensuses) (number : Nat) :
    Option (TakenCensuses × Census) :=
  (g.checkedCensusTaker.visitFrom? g.size taken number).bind fun taken =>
    (taken.census? number).map fun census => (taken, census)

/-- The census of a node, where none has been taken before. -/
def checkedCensus? (g : ForestGraph K) (number : Nat) : Option Census :=
  (g.checkedDemand? (.empty g.size) number).map Prod.snd

/-- The censuses of nodes one after another, each with the use of those that have been taken. -/
def checkedDemands? (g : ForestGraph K) (taken : TakenCensuses) (numbers : List Nat) :
    Option (TakenCensuses × List Census) :=
  numbers.foldlM
    (fun (taken, censuses) number =>
      (g.checkedDemand? taken number).map fun (taken, census) => (taken, censuses ++ [census]))
    (taken, [])

end ForestGraph

/-- The census of all roots together, if no height passes the largest count. -/
def SharedForests.checkedCensus? (fs : SharedForests K) : Option Census :=
  (fs.graph.checkedDemands? (.empty fs.graph.size) fs.roots).bind fun (_, censuses) =>
    Census.choice? censuses

namespace ForestGraph

variable {g : ForestGraph K} {i : Nat} {taken taken' : TakenCensuses}

theorem isSome_census?_of_takeCensus? (h : g.takeCensus? taken i = some taken') :
    ∀ j ∈ g.children i, (taken.census? j).isSome := by
  obtain ⟨n, hn, hcensuses⟩ := Option.bind_eq_some_iff.1 h
  obtain ⟨_, halternatives, -⟩ := Option.map_eq_some_iff.1 hcensuses
  intro j hj
  rw [children_eq hn] at hj
  obtain ⟨children, hmem, hj⟩ := List.mem_flatten.1 hj
  obtain ⟨_, hchildren⟩ := exists_of_mapM_eq_some halternatives children hmem
  exact Option.isSome_iff_exists.2 (exists_of_mapM_eq_some hchildren j hj)

/-- Where the height of a forest is a count, a visit is the same with checks. -/
theorem takeCheckedCensus?_eq (h : TakenCensuses.CorrectFor g taken) {f : Forest K}
    (hf : g.forestAt? i = some f) (hmax : f.census.maxDepth ≤ maxCount)
    (hvisit : g.takeCensus? taken i = some taken') :
    g.takeCheckedCensus? taken i = some taken' ∧ TakenCensuses.CorrectFor g taken' := by
  have hchildren := isSome_census?_of_takeCensus? hvisit
  rw [takeCensus?_eq h hf hchildren, Option.some_inj] at hvisit
  subst hvisit
  refine ⟨?_, h.add hf hchildren⟩
  obtain ⟨n, hn, rfl⟩ := exists_node_of_forestAt?_eq_some hf
  rw [takeCheckedCensus?, hn, Option.bind_some, h.mapM_mapM_census? hn hchildren, Option.bind_some,
    Forest.ofAlternatives?_census hmax, Option.map_some]

/-- Where the heights of all forests below a node are counts, its census is the same with checks,
whatever has been taken before. -/
theorem checkedDemand?_eq (h : TakenCensuses.CorrectFor g taken) (hi : i < g.size)
    (hmax : ∀ j, Reaches g.children i j → ∀ f, g.forestAt? j = some f →
      f.census.maxDepth ≤ maxCount) :
    g.checkedDemand? taken i = g.demandCensus? taken i := by
  obtain ⟨taken', hrun, -⟩ := g.lawful_censusTaker.exists_visitFrom?_eq_some hi h
  have hchecked : g.checkedCensusTaker.visitFrom? g.size taken i = some taken' := by
    refine PostOrder.visitFrom?_with_visit? h (fun taken j taken' hcorrect hreach hvisit => ?_) hrun
    have hreach : Reaches g.children i j := hreach.mono fun _ _ hk => List.mem_reverse.1 hk
    have hj : j < g.size := Nat.lt_of_le_of_lt (hreach.le fun _ _ => lt_of_mem_children) hi
    obtain ⟨f, hf⟩ := Option.isSome_iff_exists.1 (isSome_forestAt?_iff.2 hj)
    exact takeCheckedCensus?_eq hcorrect hf (hmax j hreach f hf) hvisit
  rw [checkedDemand?, demandCensus?, hchecked, hrun]

private theorem checkedDemands?_eq (h : TakenCensuses.CorrectFor g taken) {numbers : List Nat}
    (hlt : ∀ i ∈ numbers, i < g.size)
    (hmax : ∀ i ∈ numbers, ∀ j, Reaches g.children i j → ∀ f, g.forestAt? j = some f →
      f.census.maxDepth ≤ maxCount) :
    g.checkedDemands? taken numbers = g.demandCensuses? taken numbers := by
  induction numbers using List.reverseRecOn with
  | nil => rfl
  | append_singleton numbers i ih =>
    rw [List.forall_mem_append, List.forall_mem_singleton] at hlt hmax
    obtain ⟨taken', hdemands, h'⟩ := exists_demandCensuses?_eq_some h hlt.1
    have hchecked := (ih hlt.1 hmax.1).trans hdemands
    rw [checkedDemands?] at hchecked ⊢
    rw [demandCensuses?] at hdemands ⊢
    rw [List.foldlM_append, List.foldlM_append, hchecked, hdemands]
    simp [checkedDemand?_eq h' hlt.2 hmax.2]

end ForestGraph

/-! ### Heights of shared forests -/

namespace SharedForests

/-- **Heights do not overflow.** The census of each root can be taken. Its smallest height is at
most the largest, and that at most the number of objects that can be reached from the root and have
an alternative with children. If fewer than `2 ^ 64` objects can be reached, no height passes the
largest count while the census is taken. The same holds of the census of all roots together. -/
theorem census?_depths (fs : SharedForests K) :
    (∀ r ∈ fs.roots, ∃ census, fs.graph.census? r = some census ∧
      census.minDepth ≤ census.maxDepth ∧
      census.maxDepth ≤ {j | Reaches fs.graph.children r j ∧
        ∃ n, fs.graph.nodes[j]? = some n ∧ ∃ children ∈ n.alternatives, children ≠ []}.encard ∧
      ({j | Reaches fs.graph.children r j}.encard < 2 ^ 64 →
        fs.graph.checkedCensus? r = some census)) ∧
    (fs.objects.encard < 2 ^ 64 → fs.checkedCensus? = fs.census?) := by
  constructor
  · intro r hr
    obtain ⟨f, hf⟩ := exists_forestAt?_of_mem_roots hr
    have hcensus := ForestGraph.census?_eq hf
    refine ⟨f.census, hcensus, ?_, ForestGraph.maxDepth_census_le_encard hf, fun hfew => ?_⟩
    · exact Census.minDepth_le_maxDepth (f.attains_census .minDepth) (f.attains_census .maxDepth)
    · rw [← hcensus, ForestGraph.checkedCensus?, ForestGraph.census?,
        ForestGraph.checkedDemand?_eq (.empty _) (fs.roots_lt r hr)]
      exact fun j hj f' hf' => ForestGraph.maxDepth_census_le_maxCount hj hf' hfew
  · intro hfew
    rw [checkedCensus?, census?, ForestGraph.checkedDemands?_eq (.empty _) fs.roots_lt]
    intro r hr j hj f hf
    refine ForestGraph.maxDepth_census_le_maxCount hj hf (lt_of_le_of_lt ?_ hfew)
    exact Set.encard_le_encard fun k hk => ⟨r, hr, hk⟩

theorem encard_objects_le (fs : SharedForests K) : fs.objects.encard ≤ fs.graph.size := by
  have hsubset : fs.objects ⊆ Finset.range fs.graph.size := fun i hi => by
    obtain ⟨_, hn⟩ := exists_node_of_mem_objects hi
    exact Finset.mem_coe.2 (Finset.mem_range.2 (Array.getElem?_eq_some_iff.1 hn).1)
  calc fs.objects.encard ≤ (Finset.range fs.graph.size : Set Nat).encard :=
        Set.encard_le_encard hsubset
    _ = fs.graph.size := by rw [Set.encard_coe_eq_coe_finsetCard, Finset.card_range]

/-- Thirty-three levels above a leaf, each with two alternatives of the level below it four
times. -/
def sharedTower : SharedForests Char :=
  .ofRoots (.ofNodes (⟨'A', [[]]⟩ :: (List.range 33).map fun level =>
    ⟨'S', [.replicate 4 level, .replicate 4 level]⟩)) [33]

/-- The number of nodes and the number of ways are beyond the counts, the height is 33. -/
theorem census?_depths_sharedTower :
    sharedTower.roots = [33] ∧ {j | Reaches sharedTower.graph.children 33 j}.encard < 2 ^ 64 ∧
      sharedTower.objects.encard < 2 ^ 64 ∧
      sharedTower.graph.checkedCensus? 33 = some ⟨maxCount, maxCount, 33, 33, none⟩ ∧
      sharedTower.checkedCensus? = some ⟨maxCount, maxCount, 33, 33, none⟩ ∧
      33 ≤ {j | Reaches sharedTower.graph.children 33 j ∧
        ∃ n, sharedTower.graph.nodes[j]? = some n ∧
          ∃ children ∈ n.alternatives, children ≠ []}.encard := by
  have hroots : sharedTower.roots = [33] := by decide +kernel
  have hsize : sharedTower.graph.size = 34 := by decide +kernel
  have hroot : sharedTower.graph.census? 33 = some ⟨maxCount, maxCount, 33, 33, none⟩ := by
    decide +kernel
  have hall : sharedTower.census? = some ⟨maxCount, maxCount, 33, 33, none⟩ := by decide +kernel
  have hfew : sharedTower.objects.encard < 2 ^ 64 := by
    refine lt_of_le_of_lt sharedTower.encard_objects_le ?_
    rw [hsize]
    exact_mod_cast (show 34 < 2 ^ 64 by decide)
  have hmem : 33 ∈ sharedTower.roots := by simp [hroots]
  have hsubset : {j | Reaches sharedTower.graph.children 33 j} ⊆ sharedTower.objects :=
    fun _ hj => ⟨33, hmem, hj⟩
  have hfew' := lt_of_le_of_lt (Set.encard_le_encard hsubset) hfew
  obtain ⟨heach, htogether⟩ := sharedTower.census?_depths
  obtain ⟨census, hcensus, -, hencard, hchecked⟩ := heach 33 hmem
  cases hcensus.symm.trans hroot
  exact ⟨hroots, hfew', hfew, hchecked hfew', (htogether hfew).trans hall, hencard⟩

end SharedForests

end ChartParsing
