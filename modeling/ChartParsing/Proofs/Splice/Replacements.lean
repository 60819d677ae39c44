import ChartParsing.Proofs.Choices
import ChartParsing.Proofs.Splice.Faults

/-!
# What takes the place of a forest

What takes the place of a forest is found by recursion: a leaf gives way to its value, a temporary
forest to the choices from its alternatives, and any other forest stays, with spliced alternatives.
The same recursion on the nodes of a table gives lists of nodes, once it is known which nodes the
forests that stay become.

## Main definitions

* `spliceAlternatives`: what takes the place of alternatives, from what does so for the children.
* `Forest.replacements`, `Forest.splicedAlternatives`: the lists of forests that take the place of
  a forest or of its alternatives.
* `ForestNode.GivesWay`: whether the forest of a node gives way to its children.
* `ForestGraph.replacements`, `ForestGraph.splicedAlternatives`: the lists of nodes that take the
  place of a node or of its alternatives.

## Main results

* `map_spliceAlternatives`: splicing nodes is splicing what they stand for.
* `Forest.exists_replacements_eq_singleton`: a forest that stays is replaced by one forest.
* `ForestGraph.exists_of_mem_replacements`: what takes the place of a node is made of what the nodes
  below it become.
-/

namespace ChartParsing

universe u v w

variable {K : Type u} {V : Type v}

/-! ### Alternatives -/

section Alternatives

variable {α : Type u} {β : Type v}

/-- The lists that take the place of alternatives whose children have the given replacements: one
for each choice of a replacement for every child. -/
def spliceAlternatives {α : Type u} (alternatives : List (List (List (List α)))) : List (List α) :=
  alternatives.flatMap fun children => (choices children).map List.flatten

/-- Splicing is the same before and after something is looked up for every item. -/
theorem map_spliceAlternatives (f : α → Option β) (alternatives : List (List (List (List α)))) :
    (spliceAlternatives alternatives).map (List.filterMap f) =
      spliceAlternatives (alternatives.map (List.map (List.map (List.filterMap f)))) := by
  rw [spliceAlternatives, spliceAlternatives, List.map_flatMap, List.flatMap_map]
  refine List.flatMap_congr fun children _ => ?_
  rw [choices_map, List.map_map, List.map_map]
  exact List.map_congr_left fun lists _ => List.filterMap_flatten

theorem exists_of_mem_spliceAlternatives {alternatives : List (List (List (List α)))} {l : List α}
    (h : l ∈ spliceAlternatives alternatives) {a : α} (ha : a ∈ l) :
    ∃ children ∈ alternatives, ∃ options ∈ children, ∃ l' ∈ options, a ∈ l' := by
  obtain ⟨children, hmem, hl⟩ := List.mem_flatMap.1 h
  obtain ⟨lists, hlists, rfl⟩ := List.mem_map.1 hl
  obtain ⟨l', hl', ha'⟩ := List.mem_flatten.1 ha
  obtain ⟨options, hoptions, hoption⟩ := exists_mem_of_mem_choices hlists hl'
  exact ⟨children, hmem, options, hoptions, l', hoption, ha'⟩

/-- If something can take the place of every child, then whatever can take the place of one of them
is a part of something that takes the place of an alternative. -/
theorem exists_subset_mem_spliceAlternatives {alternatives : List (List (List (List α)))}
    {children : List (List (List α))} (hmem : children ∈ alternatives) (hne : [] ∉ children)
    {options : List (List α)} (hoptions : options ∈ children) {l : List α} (hl : l ∈ options) :
    ∃ l' ∈ spliceAlternatives alternatives, l ⊆ l' := by
  obtain ⟨lists, hlists, hchosen⟩ := exists_mem_choices_of_mem hne hoptions hl
  exact ⟨lists.flatten, List.mem_flatMap.2 ⟨children, hmem, List.mem_map_of_mem hlists⟩,
    fun a ha => List.mem_flatten.2 ⟨l, hchosen, ha⟩⟩

end Alternatives

/-! ### Recursion on forests -/

section Replacements

variable [DecidableEq K]

/-- The replacements of a forest with the given label, from those of its children. -/
def SpliceTable.replace (t : SpliceTable K V) (label : K)
    (alternatives : List (List (List (List (Forest (Symbol K V)))))) :
    List (List (Forest (Symbol K V))) :=
  if alternatives.all List.isEmpty then
    match t.output? label with
    | some value => [[.node (.value value) [[]]]]
    | none => []
  else if t.flag? label = some true then spliceAlternatives alternatives
  else [[.node (.rule label) (spliceAlternatives alternatives)]]

/-- The lists of forests, one of which takes the place of a forest in the alternatives that it is a
child of. -/
def Forest.replacements (t : SpliceTable K V) (f : Forest K) : List (List (Forest (Symbol K V))) :=
  f.fold t.replace

/-- What takes the place of the alternatives of a forest. -/
def Forest.splicedAlternatives (t : SpliceTable K V) (alternatives : List (List (Forest K))) :
    List (List (Forest (Symbol K V))) :=
  spliceAlternatives (alternatives.map (List.map (replacements t)))

end Replacements

namespace Forest

variable [DecidableEq K] {t : SpliceTable K V} {label : K} {alternatives : List (List (Forest K))}

theorem replacements_node (t : SpliceTable K V) (label : K)
    (alternatives : List (List (Forest K))) :
    (node label alternatives).replacements t =
      t.replace label (alternatives.map (List.map (replacements t))) :=
  fold_node t.replace label alternatives

theorem replacements_of_isLeaf (h : (node label alternatives).isLeaf) {value : V}
    (hvalue : t.output? label = some value) :
    (node label alternatives).replacements t = [[.node (.value value) [[]]]] := by
  rw [replacements_node, SpliceTable.replace, all_isEmpty_map _ label, if_pos h, hvalue]

theorem replacements_of_temporary (h : ¬(node label alternatives).isLeaf)
    (hflag : t.flag? label = some true) :
    (node label alternatives).replacements t =
      splicedAlternatives t alternatives := by
  rw [replacements_node, SpliceTable.replace, all_isEmpty_map _ label, if_neg h, if_pos hflag]
  rfl

theorem replacements_of_not_temporary (h : ¬(node label alternatives).isLeaf)
    (hflag : t.flag? label ≠ some true) :
    (node label alternatives).replacements t =
      [[.node (.rule label) (splicedAlternatives t alternatives)]] := by
  rw [replacements_node, SpliceTable.replace, all_isEmpty_map _ label, if_neg h, if_neg hflag]
  rfl

theorem replacements_of_kept (h : ¬(node label alternatives).isLeaf)
    (hflag : t.flag? label = some false) :
    (node label alternatives).replacements t =
      [[.node (.rule label) (splicedAlternatives t alternatives)]] :=
  replacements_of_not_temporary h (by simp [hflag])

/-- A forest without faults whose key is not temporary is replaced by one forest. -/
theorem exists_replacements_eq_singleton {f : Forest K} (hflag : t.flag? f.label = some false)
    (hfault : f.fault? t = none) : ∃ f', f.replacements t = [[f']] := by
  cases faultless_of_fault?_eq_none hfault with
  | leaf isLeaf output_eq => exact ⟨_, replacements_of_isLeaf isLeaf output_eq⟩
  | temporary _ flag_eq _ => cases hflag.symm.trans flag_eq
  | kept not_isLeaf flag_eq _ => exact ⟨_, replacements_of_kept not_isLeaf flag_eq⟩

end Forest

/-! ### Recursion on nodes -/

/-- The forest of a node gives way to its children if it is no leaf and its key is temporary. -/
def ForestNode.GivesWay (n : ForestNode K) (flag? : K → Option Bool) : Prop :=
  ¬n.isLeaf ∧ flag? n.label = some true

instance (n : ForestNode K) (flag? : K → Option Bool) : Decidable (n.GivesWay flag?) :=
  inferInstanceAs (Decidable (_ ∧ _))

namespace ForestGraph

/-- The lists of nodes, one of which takes the place of a node in the alternatives that it is a
child of, if `nodeOf` says what the nodes become that do not give way. -/
def replacements (g : ForestGraph K) (flag? : K → Option Bool) (nodeOf : Nat → Nat) (i : Nat) :
    List (List Nat) :=
  match g.nodes[i]? with
  | none => []
  | some n =>
    if n.GivesWay flag? then
      spliceAlternatives (n.alternatives.map (List.map fun c =>
        if _h : c < i then g.replacements flag? nodeOf c else []))
    else [[nodeOf i]]
termination_by i

/-- What takes the place of the alternatives of a node. -/
def splicedAlternatives (g : ForestGraph K) (flag? : K → Option Bool) (nodeOf : Nat → Nat)
    (n : ForestNode K) : List (List Nat) :=
  spliceAlternatives (n.alternatives.map (List.map (g.replacements flag? nodeOf)))

variable {g : ForestGraph K} {flag? : K → Option Bool} {nodeOf : Nat → Nat} {i : Nat}
  {n : ForestNode K}

theorem replacements_of_eq_none (hn : g.nodes[i]? = none) : g.replacements flag? nodeOf i = [] := by
  rw [replacements, hn]

theorem replacements_of_givesWay (hn : g.nodes[i]? = some n) (h : n.GivesWay flag?) :
    g.replacements flag? nodeOf i = g.splicedAlternatives flag? nodeOf n := by
  rw [replacements, hn]
  simp only [if_pos h]
  rw [splicedAlternatives]
  congr 1
  refine List.map_congr_left fun children hmem => List.map_congr_left fun c hc => ?_
  rw [dif_pos (lt_of_mem_children (mem_children hn hmem hc))]

theorem replacements_of_not_givesWay (hn : g.nodes[i]? = some n) (h : ¬n.GivesWay flag?) :
    g.replacements flag? nodeOf i = [[nodeOf i]] := by
  rw [replacements, hn]
  exact if_neg h

theorem exists_of_mem_splicedAlternatives {nodes : List Nat}
    (h : nodes ∈ g.splicedAlternatives flag? nodeOf n) {m : Nat} (hm : m ∈ nodes) :
    ∃ c ∈ n.children, ∃ nodes' ∈ g.replacements flag? nodeOf c, m ∈ nodes' := by
  obtain ⟨_, hmem, _, hoptions, nodes', hnodes', hm'⟩ := exists_of_mem_spliceAlternatives h hm
  obtain ⟨children, hchildren, rfl⟩ := List.mem_map.1 hmem
  obtain ⟨c, hc, rfl⟩ := List.mem_map.1 hoptions
  exact ⟨c, List.mem_flatten.2 ⟨children, hchildren, hc⟩, nodes', hnodes', hm'⟩

/-- What takes the place of a node is made of what the nodes below it become. -/
theorem exists_of_mem_replacements {nodes : List Nat}
    (h : nodes ∈ g.replacements flag? nodeOf i) {m : Nat} (hm : m ∈ nodes) :
    ∃ j n, Reaches g.children i j ∧ g.nodes[j]? = some n ∧ ¬n.GivesWay flag? ∧ nodeOf j = m := by
  induction i using Nat.strongRecOn generalizing nodes with
  | ind i ih =>
    cases hn : g.nodes[i]? with
    | none =>
      rw [replacements_of_eq_none hn] at h
      cases h
    | some n =>
      by_cases hway : n.GivesWay flag?
      · rw [replacements_of_givesWay hn hway] at h
        obtain ⟨c, hc, nodes', hnodes', hm'⟩ := exists_of_mem_splicedAlternatives h hm
        have hchild : c ∈ g.children i := children_eq hn ▸ hc
        obtain ⟨j, n', hreach, hj⟩ := ih c (lt_of_mem_children hchild) hnodes' hm'
        exact ⟨j, n', .step hchild hreach, hj⟩
      · rw [replacements_of_not_givesWay hn hway, List.mem_singleton] at h
        subst h
        exact ⟨i, n, .refl i, hn, hway, (List.mem_singleton.1 hm).symm⟩

end ForestGraph

end ChartParsing
