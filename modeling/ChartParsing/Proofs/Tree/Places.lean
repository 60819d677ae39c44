import ChartParsing.Tree.Basic

/-!
# Places in a tree

A place in a tree is the way there from the root: at each step, the number of the subtree to go to.
In preorder, a place comes before the places below it, and what is below it comes from left to
right. This is the lexicographic order of places.

## Main definitions

* `Tree.subtree?`: the subtree at a place.
* `Tree.places`: the places of a tree in preorder.
* `Tree.IsLastChild`: at the place is the last child of its parent.

## Main results

* `Tree.mem_places_iff`, `Tree.pairwise_places`: the places are those where there is a subtree, in
  their order.
* `Tree.length_places`: there are as many places as leaves and nodes.
-/

namespace ChartParsing

universe u

namespace Tree

variable {K : Type u}

/-! ### Subtrees -/

/-- The subtree at a place, if there is one. -/
def subtree? (t : Tree K) : List Nat → Option (Tree K)
  | [] => some t
  | i :: place => t.children[i]?.bind fun child => child.subtree? place

/-- At the place is the last child of its parent. -/
def IsLastChild (t : Tree K) (place : List Nat) : Prop :=
  ∃ above i parent, place = above ++ [i] ∧ t.subtree? above = some parent ∧
    i + 1 = parent.children.length

theorem subtree?_cons_of_getElem? {t child : Tree K} {i : Nat} (h : t.children[i]? = some child)
    (place : List Nat) : t.subtree? (i :: place) = child.subtree? place := by
  rw [subtree?, h, Option.bind_some]

theorem isLastChild_singleton_iff {t : Tree K} {i : Nat} :
    t.IsLastChild [i] ↔ i + 1 = t.children.length := by
  refine ⟨?_, fun h => ⟨[], i, t, rfl, rfl, h⟩⟩
  rintro ⟨above, j, parent, hplace, hparent, hlast⟩
  cases above with
  | nil =>
    cases hplace
    cases hparent
    exact hlast
  | cons k above =>
    exact absurd (List.cons.inj hplace).2.symm (List.append_ne_nil_of_right_ne_nil above (by simp))

/-- Below a child, the last children of the tree are those of the child. -/
theorem isLastChild_cons_iff {t child : Tree K} {i : Nat} (h : t.children[i]? = some child)
    {place : List Nat} (hne : place ≠ []) :
    t.IsLastChild (i :: place) ↔ child.IsLastChild place := by
  constructor
  · rintro ⟨above, j, parent, hplace, hparent, hlast⟩
    cases above with
    | nil => exact absurd (List.cons.inj hplace).2 hne
    | cons k above =>
      obtain ⟨rfl, rfl⟩ := List.cons.inj hplace
      rw [subtree?_cons_of_getElem? h] at hparent
      exact ⟨above, j, parent, rfl, hparent, hlast⟩
  · rintro ⟨above, j, parent, rfl, hparent, hlast⟩
    exact ⟨i :: above, j, parent, rfl, (subtree?_cons_of_getElem? h above).trans hparent, hlast⟩

/-! ### Preorder -/

mutual

/-- The places of a tree in preorder. -/
def places : Tree K → List (List Nat)
  | .leaf _ => [[]]
  | .node _ children => [] :: placesOfList 0 children

/-- The places of a list of subtrees that are numbered from `i` on. -/
def placesOfList (i : Nat) : List (Tree K) → List (List Nat)
  | [] => []
  | t :: ts => t.places.map (i :: ·) ++ placesOfList (i + 1) ts

end

theorem places_eq (t : Tree K) : t.places = [] :: placesOfList 0 t.children := by
  cases t with
  | leaf _ => rfl
  | node _ _ => rw [places, children]

theorem mem_placesOfList_iff {ts : List (Tree K)} {i : Nat} {place : List Nat} :
    place ∈ placesOfList i ts ↔
      ∃ j t below, ts[j]? = some t ∧ below ∈ t.places ∧ (i + j) :: below = place := by
  induction ts generalizing i with
  | nil => simp [placesOfList]
  | cons t ts ih =>
    rw [placesOfList, List.mem_append, List.mem_map, ih]
    constructor
    · rintro (⟨below, hbelow, rfl⟩ | ⟨j, s, below, hs, hbelow, rfl⟩)
      · exact ⟨0, t, below, rfl, hbelow, rfl⟩
      · exact ⟨j + 1, s, below, hs, hbelow, by rw [Nat.add_right_comm, Nat.add_assoc]⟩
    · rintro ⟨_ | j, s, below, hs, hbelow, rfl⟩
      · cases hs
        exact .inl ⟨below, hbelow, rfl⟩
      · exact .inr ⟨j, s, below, hs, hbelow, by rw [Nat.add_right_comm, Nat.add_assoc]⟩

/-- The places are those where there is a subtree. -/
theorem mem_places_iff {t : Tree K} {place : List Nat} :
    place ∈ t.places ↔ (t.subtree? place).isSome := by
  induction place generalizing t with
  | nil => simp [places_eq, subtree?]
  | cons i place ih =>
    rw [places_eq, List.mem_cons, or_iff_right (List.cons_ne_nil i place), mem_placesOfList_iff]
    constructor
    · rintro ⟨j, child, below, hchild, hbelow, heq⟩
      rw [Nat.zero_add] at heq
      obtain ⟨rfl, rfl⟩ := List.cons.inj heq
      rw [subtree?_cons_of_getElem? hchild]
      exact ih.1 hbelow
    · intro h
      obtain ⟨s, hs⟩ := Option.isSome_iff_exists.1 h
      obtain ⟨child, hchild, hbelow⟩ := Option.bind_eq_some_iff.1 hs
      exact ⟨i, child, place, hchild, ih.2 (Option.isSome_of_eq_some hbelow), by rw [Nat.zero_add]⟩

mutual

/-- The places are in lexicographic order, so that none is listed twice. -/
theorem pairwise_places : (t : Tree K) → t.places.Pairwise (· < ·)
  | .leaf _ => List.pairwise_singleton _ _
  | .node _ children => by
    rw [places, List.pairwise_cons]
    refine ⟨fun place hplace => ?_, pairwise_placesOfList children 0⟩
    obtain ⟨j, _, below, -, -, rfl⟩ := mem_placesOfList_iff.1 hplace
    exact List.nil_lt_cons _ _

private theorem pairwise_placesOfList : (ts : List (Tree K)) → (i : Nat) →
    (placesOfList i ts).Pairwise (· < ·)
  | [], _ => .nil
  | t :: ts, i => by
    rw [placesOfList, List.pairwise_append]
    refine ⟨List.pairwise_map.2 ((pairwise_places t).imp fun h => ?_),
      pairwise_placesOfList ts (i + 1), fun place hplace place' hplace' => ?_⟩
    · exact List.cons_lt_cons_iff.2 (.inr ⟨rfl, h⟩)
    · obtain ⟨below, -, rfl⟩ := List.mem_map.1 hplace
      obtain ⟨j, _, below', -, -, rfl⟩ := mem_placesOfList_iff.1 hplace'
      exact List.cons_lt_cons_iff.2 (.inl (by omega))

end

mutual

/-- There are as many places as leaves and nodes. -/
theorem length_places : (t : Tree K) → t.places.length = t.size
  | .leaf _ => rfl
  | .node _ children => by
    rw [places, List.length_cons, length_placesOfList children 0, size]

private theorem length_placesOfList : (ts : List (Tree K)) → (i : Nat) →
    (placesOfList i ts).length = sizeOfList ts
  | [], _ => rfl
  | t :: ts, i => by
    rw [placesOfList, List.length_append, List.length_map, length_places t,
      length_placesOfList ts (i + 1), sizeOfList]

end

end Tree

end ChartParsing
