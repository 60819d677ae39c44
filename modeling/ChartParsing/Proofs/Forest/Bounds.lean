import ChartParsing.Proofs.Choices
import ChartParsing.Proofs.Forest.Censuses
import ChartParsing.Proofs.Forest.Trees

/-!
# The bounds of a census

The four bounds of a census are found without looking at trees: a choice takes the better of two
figures, forests side by side join theirs, and a node adds one. Each of them is the extent of a tree
of the forest, and no tree of the forest has a better one. This holds since joining extents is
monotone: the best choice of trees for some children is made of the best tree for each child.

Of a childless node nothing is counted, so it has the extent of a leaf.

## Main definitions

* `Tree.extent`: the number of nodes of a tree, or its height, by the way in which extents are
  joined.
* `Census.Bound`: a bound of a census, with the laws by which it is computed.
* `Census.Bound.minNodes`, `Census.Bound.maxNodes`, `Census.Bound.minDepth`,
  `Census.Bound.maxDepth`: the four bounds.
* `Census.Bound.Attains`: a bound is the best extent of some trees.

## Main results

* `Census.Bound.attains_choice?`, `Census.Bound.attains_ofChildren`: choices and alternatives.
* `Forest.attains_census`, `SharedForests.attains_census?`: the bounds of a census are the best
  extents of the trees.
-/

namespace ChartParsing

universe u v

variable {K : Type u}

/-! ### Extents of trees -/

namespace Tree

mutual

/-- The extent of a tree: 0 without children, and otherwise one more than the joined extents of the
children. Joined by addition, it is the number of nodes with children; joined by `max`, it is the
height over these nodes. -/
def extent (join : Nat → Nat → Nat) : Tree K → Nat
  | .leaf _ => 0
  | .node _ children => if children.isEmpty then 0 else extentOfList join children + 1

/-- The joined extents of a list of trees. -/
def extentOfList (join : Nat → Nat → Nat) : List (Tree K) → Nat
  | [] => 0
  | t :: ts => join (extent join t) (extentOfList join ts)

end

theorem extent_leaf (join : Nat → Nat → Nat) (key : K) : (leaf key).extent join = 0 := by
  rw [extent]

theorem extent_node_nil (join : Nat → Nat → Nat) (key : K) : (node key []).extent join = 0 := by
  rw [extent, List.isEmpty_nil, if_pos rfl]

theorem extent_node_of_ne_nil (join : Nat → Nat → Nat) (key : K) {children : List (Tree K)}
    (h : children ≠ []) : (node key children).extent join = extentOfList join children + 1 := by
  rw [extent, if_neg (by simpa using h)]

end Tree

/-! ### Bounds -/

namespace Census

/-- A bound of a census on the extents of trees. The figure shows an extent up to a limit. -/
structure Bound where
  /-- The figure of the census. -/
  value : Census → Nat
  /-- Whether it is a lower bound. -/
  isLower : Bool
  /-- The extent of trees side by side. -/
  join : Nat → Nat → Nat
  /-- What the figure shows of an extent. -/
  cap : Nat → Nat
  join_zero : ∀ x, join x 0 = x
  zero_join : ∀ x, join 0 x = x
  join_assoc : ∀ x y z, join (join x y) z = join x (join y z)
  join_le_join : ∀ {x y x' y'}, x ≤ x' → y ≤ y' → join x y ≤ join x' y'
  cap_le_cap : ∀ {x y}, x ≤ y → cap x ≤ cap y
  value_leaf : value leaf = cap 0
  value_or : ∀ {a b x y}, value a = cap x → value b = cap y →
    value (a.or b) = cap (if isLower then min x y else max x y)
  value_beside : ∀ {a b x y}, value a = cap x → value b = cap y →
    value (a.beside b) = cap (join x y)
  value_under : ∀ {a x}, value a = cap x → value a.under = cap (x + 1)

namespace Bound

/-- The fewest nodes. -/
def minNodes : Bound where
  value := Census.minNodes
  isLower := true
  join := (· + ·)
  cap := (min · maxCount)
  join_zero := Nat.add_zero
  zero_join := Nat.zero_add
  join_assoc := Nat.add_assoc
  join_le_join := Nat.add_le_add
  cap_le_cap := by omega
  value_leaf := rfl
  value_or ha hb := by simp only [Census.or, ha, hb, if_true]; omega
  value_beside ha hb := by simp only [beside, saturatingAdd, ha, hb]; omega
  value_under ha := by simp only [under, saturatingAdd, ha]; omega

/-- The most nodes. -/
def maxNodes : Bound where
  value := Census.maxNodes
  isLower := false
  join := (· + ·)
  cap := (min · maxCount)
  join_zero := Nat.add_zero
  zero_join := Nat.zero_add
  join_assoc := Nat.add_assoc
  join_le_join := Nat.add_le_add
  cap_le_cap := by omega
  value_leaf := rfl
  value_or ha hb := by simp only [Census.or, ha, hb, Bool.false_eq_true, if_false]; omega
  value_beside ha hb := by simp only [beside, saturatingAdd, ha, hb]; omega
  value_under ha := by simp only [under, saturatingAdd, ha]; omega

/-- The smallest height. -/
def minDepth : Bound where
  value := Census.minDepth
  isLower := true
  join := max
  cap := id
  join_zero := Nat.max_zero
  zero_join := Nat.zero_max
  join_assoc := Nat.max_assoc
  join_le_join := by omega
  cap_le_cap := id
  value_leaf := rfl
  value_or ha hb := by simp only [Census.or, ha, hb, if_true, id]
  value_beside ha hb := by simp only [beside, ha, hb, id]
  value_under ha := by simp only [under, ha, id]

/-- The largest height. -/
def maxDepth : Bound where
  value := Census.maxDepth
  isLower := false
  join := max
  cap := id
  join_zero := Nat.max_zero
  zero_join := Nat.zero_max
  join_assoc := Nat.max_assoc
  join_le_join := by omega
  cap_le_cap := id
  value_leaf := rfl
  value_or ha hb := by simp only [Census.or, ha, hb, Bool.false_eq_true, if_false, id]
  value_beside ha hb := by simp only [beside, ha, hb, id]
  value_under ha := by simp only [under, ha, id]

variable {b : Bound} {x y z : Nat}

/-- The extent `x` is no worse than `y`. -/
def Better (b : Bound) (x y : Nat) : Prop := if b.isLower then x ≤ y else y ≤ x

theorem better_iff_of_isLower (hb : b.isLower = true) : b.Better x y ↔ x ≤ y := by
  rw [Better, if_pos hb]

theorem better_iff_of_not_isLower (hb : b.isLower = false) : b.Better x y ↔ y ≤ x := by
  rw [Better, if_neg (by simp [hb])]

theorem better_refl (b : Bound) (x : Nat) : b.Better x x := by
  rw [Better]
  split <;> exact Nat.le_refl x

theorem Better.trans (h : b.Better x y) (h' : b.Better y z) : b.Better x z := by
  cases hb : b.isLower with
  | true =>
    rw [better_iff_of_isLower hb] at *
    exact Nat.le_trans h h'
  | false =>
    rw [better_iff_of_not_isLower hb] at *
    exact Nat.le_trans h' h

theorem Better.antisymm (h : b.Better x y) (h' : b.Better y x) : x = y := by
  cases hb : b.isLower with
  | true =>
    rw [better_iff_of_isLower hb] at *
    exact Nat.le_antisymm h h'
  | false =>
    rw [better_iff_of_not_isLower hb] at *
    exact Nat.le_antisymm h' h

theorem Better.join {x' y' : Nat} (h : b.Better x x') (h' : b.Better y y') :
    b.Better (b.join x y) (b.join x' y') := by
  cases hb : b.isLower with
  | true =>
    rw [better_iff_of_isLower hb] at *
    exact b.join_le_join h h'
  | false =>
    rw [better_iff_of_not_isLower hb] at *
    exact b.join_le_join h h'

private theorem Better.add_one (h : b.Better x y) : b.Better (x + 1) (y + 1) := by
  cases hb : b.isLower with
  | true =>
    rw [better_iff_of_isLower hb] at *
    exact Nat.add_le_add_right h 1
  | false =>
    rw [better_iff_of_not_isLower hb] at *
    exact Nat.add_le_add_right h 1

private theorem exists_value_or {a c : Census} (ha : b.value a = b.cap x)
    (hc : b.value c = b.cap y) :
    (b.value (a.or c) = b.cap x ∧ b.Better x y) ∨ (b.value (a.or c) = b.cap y ∧ b.Better y x) := by
  have hor := b.value_or ha hc
  cases hb : b.isLower with
  | true =>
    rw [hb, if_pos rfl] at hor
    rw [better_iff_of_isLower hb, better_iff_of_isLower hb]
    rcases Nat.le_total x y with hle | hle
    · exact .inl ⟨by rw [hor, Nat.min_eq_left hle], hle⟩
    · exact .inr ⟨by rw [hor, Nat.min_eq_right hle], hle⟩
  | false =>
    rw [hb, if_neg Bool.false_ne_true] at hor
    rw [better_iff_of_not_isLower hb, better_iff_of_not_isLower hb]
    rcases Nat.le_total x y with hle | hle
    · exact .inr ⟨by rw [hor, Nat.max_eq_right hle], hle⟩
    · exact .inl ⟨by rw [hor, Nat.max_eq_left hle], hle⟩

/-! ### Bounds that trees attain -/

/-- The figure of a census shows the best extent of some trees. -/
def Attains (b : Bound) (c : Census) (ts : List (Tree K)) : Prop :=
  ∃ t ∈ ts, b.value c = b.cap (t.extent b.join) ∧
    ∀ t' ∈ ts, b.Better (t.extent b.join) (t'.extent b.join)

variable {ts us : List (Tree K)}

theorem attains_leaf (b : Bound) (key : K) : b.Attains leaf [Tree.leaf key] := by
  refine ⟨_, List.mem_singleton_self _, ?_, fun t ht => ?_⟩
  · rw [Tree.extent_leaf, b.value_leaf]
  · rw [List.mem_singleton.1 ht]
    exact b.better_refl _

theorem Attains.congr {c : Census} (h : b.Attains c ts) (hmem : ∀ t, t ∈ ts ↔ t ∈ us) :
    b.Attains c us := by
  obtain ⟨t, ht, hvalue, hbest⟩ := h
  exact ⟨t, (hmem t).1 ht, hvalue, fun t' ht' => hbest t' ((hmem t').2 ht')⟩

theorem Attains.value_eq {c c' : Census} (h : b.Attains c ts) (h' : b.Attains c' ts) :
    b.value c = b.value c' := by
  obtain ⟨t, ht, hvalue, hbest⟩ := h
  obtain ⟨t', ht', hvalue', hbest'⟩ := h'
  rw [hvalue, hvalue', (hbest t' ht').antisymm (hbest' t ht)]

theorem Attains.or {a c : Census} (h : b.Attains a ts) (h' : b.Attains c us) :
    b.Attains (a.or c) (ts ++ us) := by
  obtain ⟨t, ht, hvalue, hbest⟩ := h
  obtain ⟨u, hu, hvalue', hbest'⟩ := h'
  rcases exists_value_or hvalue hvalue' with ⟨hor, hbetter⟩ | ⟨hor, hbetter⟩
  · refine ⟨t, List.mem_append_left _ ht, hor, List.forall_mem_append.2 ⟨hbest, ?_⟩⟩
    exact fun u' hu' => hbetter.trans (hbest' u' hu')
  · refine ⟨u, List.mem_append_right _ hu, hor, List.forall_mem_append.2 ⟨?_, hbest'⟩⟩
    exact fun t' ht' => hbetter.trans (hbest t' ht')

section Choice

variable {α : Type v} {l : List α} {censusOf : α → Census} {treesOf : α → List (Tree K)}

private theorem Attains.foldl_or {a : Census} (h : b.Attains a ts)
    (hl : ∀ x ∈ l, b.Attains (censusOf x) (treesOf x)) :
    b.Attains ((l.map censusOf).foldl Census.or a) (ts ++ l.flatMap treesOf) := by
  induction l generalizing a ts with
  | nil => simpa using h
  | cons x l ih =>
    rw [List.forall_mem_cons] at hl
    rw [List.map_cons, List.foldl_cons, List.flatMap_cons, ← List.append_assoc]
    exact ih (h.or hl.1) hl.2

/-- A bound of a choice is the best extent of all trees that can be chosen. -/
theorem attains_choice? {census : Census} (h : choice? (l.map censusOf) = some census)
    (hl : ∀ x ∈ l, b.Attains (censusOf x) (treesOf x)) :
    b.Attains census (l.flatMap treesOf) := by
  cases l with
  | nil => cases h
  | cons x l =>
    rw [List.forall_mem_cons] at hl
    cases h
    exact hl.1.foldl_or hl.2

end Choice

/-! ### Bounds of an alternative -/

private theorem value_foldl_beside {a : Census} (ha : b.value a = b.cap x) {censuses : List Census}
    (h : List.Forall₂ (fun c t => b.value c = b.cap (t.extent b.join)) censuses ts) :
    b.value (censuses.foldl beside a) = b.cap (b.join x (Tree.extentOfList b.join ts)) := by
  induction h generalizing a x with
  | nil => rw [Tree.extentOfList, b.join_zero, List.foldl_nil, ha]
  | cons hc _ ih =>
    rw [List.foldl_cons, ih (b.value_beside ha hc), Tree.extentOfList, b.join_assoc]

theorem value_ofChildren {censuses : List Census} (label : K)
    (h : List.Forall₂ (fun c t => b.value c = b.cap (t.extent b.join)) censuses ts) :
    b.value (ofChildren censuses) = b.cap ((Tree.node label ts).extent b.join) := by
  cases h with
  | nil => rw [ofChildren, Tree.extent_node_nil, b.value_leaf]
  | cons hc hrest =>
    rw [ofChildren, Tree.extent_node_of_ne_nil _ _ (List.cons_ne_nil _ _), Tree.extentOfList]
    exact b.value_under (value_foldl_beside hc hrest)

/-- For each child a best tree can be chosen, and together they make a best choice. -/
theorem exists_best_choice {children : List (Forest K)}
    (h : ∀ child ∈ children, b.Attains child.census child.trees) :
    ∃ ts ∈ choices (children.map Forest.trees),
      List.Forall₂ (fun c t => b.value c = b.cap (t.extent b.join))
        (children.map Forest.census) ts ∧
      ∀ us ∈ choices (children.map Forest.trees),
        b.Better (Tree.extentOfList b.join ts) (Tree.extentOfList b.join us) := by
  induction children with
  | nil =>
    refine ⟨[], List.mem_singleton_self _, .nil, fun us hus => ?_⟩
    rw [mem_choices_nil.1 hus]
    exact b.better_refl _
  | cons child rest ih =>
    rw [List.forall_mem_cons] at h
    obtain ⟨t, ht, hvalue, hbest⟩ := h.1
    obtain ⟨ts, hts, hvalues, hbests⟩ := ih h.2
    refine ⟨t :: ts, mem_choices_cons.2 ⟨t, ht, ts, hts, rfl⟩, .cons hvalue hvalues,
      fun us hus => ?_⟩
    obtain ⟨u, hu, us, hmem, rfl⟩ := mem_choices_cons.1 hus
    exact (hbest u hu).join (hbests us hmem)

/-- The bounds of an alternative are the best extents of its nodes. -/
theorem attains_ofChildren (label : K) {children : List (Forest K)}
    (h : ∀ child ∈ children, b.Attains child.census child.trees) :
    b.Attains (ofChildren (children.map Forest.census))
      ((choices (children.map Forest.trees)).map (.node label)) := by
  obtain ⟨ts, hts, hvalues, hbest⟩ := exists_best_choice h
  refine ⟨_, List.mem_map_of_mem hts, value_ofChildren label hvalues, ?_⟩
  rw [List.forall_mem_map]
  intro us hus
  cases children with
  | nil =>
    rw [mem_choices_nil.1 hts, mem_choices_nil.1 hus]
    exact b.better_refl _
  | cons child rest =>
    have hbetter := hbest us hus
    obtain ⟨_, -, _, -, rfl⟩ := mem_choices_cons.1 hts
    obtain ⟨_, -, _, -, rfl⟩ := mem_choices_cons.1 hus
    rw [Tree.extent_node_of_ne_nil _ _ (List.cons_ne_nil _ _),
      Tree.extent_node_of_ne_nil _ _ (List.cons_ne_nil _ _)]
    exact hbetter.add_one

theorem attains_ofAlternatives {alternatives : List (List (Forest K))}
    {treesOf : List (Forest K) → List (Tree K)} (hne : alternatives ≠ [])
    (h : ∀ children ∈ alternatives,
      b.Attains (ofChildren (children.map Forest.census)) (treesOf children)) :
    b.Attains (ofAlternatives (alternatives.map (List.map Forest.census)))
      (alternatives.flatMap treesOf) := by
  obtain ⟨children, rest, rfl⟩ := List.exists_cons_of_ne_nil hne
  rw [ofAlternatives, List.map_map]
  exact attains_choice? rfl h

end Bound

theorem minDepth_le_maxDepth {c : Census} {ts : List (Tree K)}
    (hmin : Bound.minDepth.Attains c ts) (hmax : Bound.maxDepth.Attains c ts) :
    c.minDepth ≤ c.maxDepth := by
  obtain ⟨_, -, hlow, hbest⟩ := hmin
  obtain ⟨t, ht, hhigh, -⟩ := hmax
  calc c.minDepth = _ := hlow
    _ ≤ t.extent Bound.minDepth.join := hbest t ht
    _ = c.maxDepth := hhigh.symm

end Census

/-! ### Bounds of forests -/

/-- The bounds of the census of a forest are the best extents of its trees. -/
theorem Forest.attains_census (b : Census.Bound) (f : Forest K) : b.Attains f.census f.trees := by
  induction f using forall_of_children with
  | step label alternatives ih =>
    rw [census_node]
    by_cases hleaf : (Forest.node label alternatives).isLeaf
    · rw [trees_of_isLeaf hleaf]
      by_cases hne : alternatives = []
      · subst hne
        exact b.attains_leaf label
      -- Each alternative counts as a leaf.
      have hchildren : ∀ children ∈ alternatives,
          b.Attains (.ofChildren (children.map census)) [Tree.leaf label] := fun children hmem => by
        rw [List.isEmpty_iff.1 (List.all_eq_true.1 hleaf children hmem)]
        exact b.attains_leaf label
      refine (Census.Bound.attains_ofAlternatives hne hchildren).congr fun t => ?_
      simp [Forest.label, List.exists_mem_of_ne_nil alternatives hne]
    · have hne : alternatives ≠ [] := by
        rintro rfl
        exact hleaf rfl
      rw [trees_node_of_not_isLeaf hleaf]
      exact Census.Bound.attains_ofAlternatives hne fun children hmem =>
        Census.Bound.attains_ofChildren label (ih children hmem)

/-- The bounds of the census of all roots are the best extents of all trees. -/
theorem SharedForests.attains_census? (b : Census.Bound) {fs : SharedForests K} {census : Census}
    (h : fs.census? = some census) : b.Attains census (fs.toForests.flatMap Forest.trees) :=
  Census.Bound.attains_choice? (fs.census?_eq.symm.trans h) fun f _ => f.attains_census b

end ChartParsing
