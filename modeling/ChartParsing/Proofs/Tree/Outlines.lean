import ChartParsing.Proofs.Tree.Places
import ChartParsing.Tree.Outline
import Mathlib.Data.List.Forall2

/-!
# Rows of outlines

The levels in front of a key tell how deep its row is, and the rows below a node are those up to the
next row that is no deeper than the node. So the rows give back the tree, except that a node without
subtrees has the same row as a leaf. There is one row for each place in preorder, and its levels
show at each step on the way to the place whether this was the step to a last child.

## Main definitions

* `Tree.trimmed`: a tree with leaves in place of the nodes without subtrees.
* `Tree.ShownAt`: what the row of a place holds, step by step from the root.

## Main results

* `Tree.rowsOfList_append_inj`: the rows of subtrees end where the first row stands that is no
  deeper than their parent.
* `Tree.outlineRows_eq_iff`: equal rows are those of trees that are equal once they are trimmed.
* `Tree.forall₂_outlineRows`: the rows are those of the places in preorder.
-/

namespace ChartParsing

universe u

variable {K : Type u}

namespace Tree

/-! ### Trimmed trees -/

mutual

/-- The tree with a leaf in place of each node without subtrees. -/
def trimmed : Tree K → Tree K
  | .leaf key => .leaf key
  | .node key [] => .leaf key
  | .node key (t :: ts) => .node key (t.trimmed :: trimmedOfList ts)

/-- The trees with leaves in place of their nodes without subtrees. -/
def trimmedOfList : List (Tree K) → List (Tree K)
  | [] => []
  | t :: ts => t.trimmed :: trimmedOfList ts

end

private theorem trimmed_eq (t : Tree K) : t.trimmed =
    if (trimmedOfList t.children).isEmpty then .leaf t.key
    else .node t.key (trimmedOfList t.children) := by
  match t with
  | .leaf _ => rfl
  | .node _ [] => rfl
  | .node _ (_ :: _) => rfl

private theorem trimmed_congr {s t : Tree K} (hkey : s.key = t.key)
    (hchildren : trimmedOfList s.children = trimmedOfList t.children) : s.trimmed = t.trimmed := by
  rw [trimmed_eq, trimmed_eq, hkey, hchildren]

/-! ### Rows and trees -/

theorem rowsBelow_eq (levels : List Bool) (t : Tree K) :
    rowsBelow levels t = ⟨levels, t.key⟩ :: rowsOfList levels t.children := by
  cases t with
  | leaf _ => rfl
  | node _ _ => rw [rowsBelow, key, children]

mutual

theorem rowsBelow_trimmed (levels : List Bool) : (t : Tree K) →
    rowsBelow levels t.trimmed = rowsBelow levels t
  | .leaf _ => rfl
  | .node _ [] => rfl
  | .node key (t :: ts) => by
    rw [trimmed, rowsBelow, rowsBelow]
    exact congrArg (_ :: ·) (rowsOfList_trimmedOfList levels (t :: ts))

private theorem rowsOfList_trimmedOfList (levels : List Bool) : (ts : List (Tree K)) →
    rowsOfList levels (trimmedOfList ts) = rowsOfList levels ts
  | [] => rfl
  | t :: ts => by
    have hempty : (trimmedOfList ts).isEmpty = ts.isEmpty := by cases ts <;> rfl
    rw [trimmedOfList, rowsOfList, rowsOfList, hempty, rowsBelow_trimmed _ t,
      rowsOfList_trimmedOfList levels ts]

end

/-- The first of the rows, if there is one, has at most `n` levels. -/
def StartsBy (n : Nat) (rows : List (OutlineRow K)) : Prop :=
  ∀ row ∈ rows.head?, row.isLast.length ≤ n

private theorem StartsBy.rowsOfList_append {levels : List Bool} {rest : List (OutlineRow K)}
    (h : StartsBy levels.length rest) (ts : List (Tree K)) :
    StartsBy (levels.length + 1) (rowsOfList levels ts ++ rest) := by
  cases ts with
  | nil => exact fun row hrow => Nat.le_succ_of_le (h row hrow)
  | cons t ts =>
    intro row hrow
    rw [rowsOfList, rowsBelow_eq] at hrow
    cases hrow
    exact Nat.le_of_eq List.length_append

private theorem StartsBy.ne_rowsOfList_cons_append {levels : List Bool} {rest : List (OutlineRow K)}
    (h : StartsBy levels.length rest) (t : Tree K) (ts : List (Tree K))
    (rest' : List (OutlineRow K)) : rest ≠ rowsOfList levels (t :: ts) ++ rest' := by
  rintro rfl
  have hle := h ⟨levels ++ [ts.isEmpty], t.key⟩ (by rw [rowsOfList, rowsBelow_eq]; rfl)
  rw [List.length_append] at hle
  exact Nat.not_succ_le_self _ hle

private theorem sizeOfList_children_lt (t : Tree K) : sizeOfList t.children < t.size := by
  cases t with
  | leaf _ => exact Nat.one_pos
  | node _ _ => rw [size, children]; exact Nat.lt_succ_self _

/-- The rows of subtrees end where the first row stands that is no deeper than their parent, and up
to there they give back the subtrees. -/
theorem rowsOfList_append_inj (levels : List Bool) : (ss ts : List (Tree K)) →
    {rest rest' : List (OutlineRow K)} →
      rowsOfList levels ss ++ rest = rowsOfList levels ts ++ rest' →
      StartsBy levels.length rest → StartsBy levels.length rest' →
        trimmedOfList ss = trimmedOfList ts ∧ rest = rest'
  | [], [], _, _, h, _, _ => ⟨rfl, h⟩
  | [], t :: ts, _, rest', h, hrest, _ => absurd h (hrest.ne_rowsOfList_cons_append t ts rest')
  | s :: ss, [], rest, _, h, _, hrest' =>
    absurd h.symm (hrest'.ne_rowsOfList_cons_append s ss rest)
  | s :: ss, t :: ts, rest, rest', h, hrest, hrest' => by
    rw [rowsOfList, rowsOfList, rowsBelow_eq, rowsBelow_eq, List.append_assoc,
      List.append_assoc] at h
    obtain ⟨hrow, hrows⟩ := List.cons.inj h
    obtain ⟨hlevels, hkey⟩ := OutlineRow.mk.inj hrow
    rw [hlevels] at hrows
    -- What comes after the first subtree, be it a sibling or the rest, is no deeper than its root.
    have hlength : (levels ++ [ts.isEmpty]).length = levels.length + 1 := List.length_append
    obtain ⟨hbelow, hrows⟩ := rowsOfList_append_inj _ s.children t.children hrows
      (hlength ▸ hrest.rowsOfList_append ss) (hlength ▸ hrest'.rowsOfList_append ts)
    obtain ⟨hbeside, heq⟩ := rowsOfList_append_inj levels ss ts hrows hrest hrest'
    exact ⟨by rw [trimmedOfList, trimmedOfList, trimmed_congr hkey hbelow, hbeside], heq⟩
termination_by ss => sizeOfList ss
decreasing_by
  · have := sizeOfList_children_lt s
    simp only [sizeOfList]
    omega
  · have := size_pos s
    simp only [sizeOfList]
    omega

/-- Equal rows are those of trees that are equal once they are trimmed. -/
theorem outlineRows_eq_iff {s t : Tree K} :
    s.outlineRows = t.outlineRows ↔ s.trimmed = t.trimmed := by
  constructor
  · intro h
    rw [outlineRows, outlineRows, rowsBelow_eq, rowsBelow_eq] at h
    obtain ⟨hrow, hrows⟩ := List.cons.inj h
    have hchildren := rowsOfList_append_inj [] s.children t.children (congrArg (· ++ []) hrows)
      nofun nofun
    exact trimmed_congr (OutlineRow.mk.inj hrow).2 hchildren.1
  · intro h
    rw [outlineRows, outlineRows, ← rowsBelow_trimmed, h, rowsBelow_trimmed]

/-! ### Rows and places -/

/-- The place has a row with the levels and the key: one level for each step to the place, which
says whether this is the step to the last child. -/
inductive ShownAt : Tree K → List Nat → List Bool → K → Prop where
  /-- The root has no levels. -/
  | root (t : Tree K) : ShownAt t [] [] t.key
  /-- Each step down adds its level in front. -/
  | step {t child : Tree K} {i : Nat} (hchild : t.children[i]? = some child)
      {place : List Nat} {levels : List Bool} {key : K} (h : ShownAt child place levels key) :
      ShownAt t (i :: place) (decide (i + 1 = t.children.length) :: levels) key

namespace ShownAt

variable {t : Tree K} {place : List Nat} {levels : List Bool} {key : K}

theorem length_eq (h : t.ShownAt place levels key) : levels.length = place.length := by
  induction h with
  | root _ => rfl
  | step _ _ ih => exact congrArg (· + 1) ih

theorem exists_subtree? (h : t.ShownAt place levels key) :
    ∃ s, t.subtree? place = some s ∧ s.key = key := by
  induction h with
  | root t => exact ⟨t, rfl, rfl⟩
  | step hchild _ ih =>
    obtain ⟨s, hs, hkey⟩ := ih
    exact ⟨s, (subtree?_cons_of_getElem? hchild _).trans hs, hkey⟩

/-- A level says whether the place on the way that is so deep holds a last child. -/
theorem exists_getElem? (h : t.ShownAt place levels key) {j : Nat} (hj : j < place.length) :
    ∃ isLast, levels[j]? = some isLast ∧ (isLast = true ↔ t.IsLastChild (place.take (j + 1))) := by
  induction h generalizing j with
  | root _ => cases hj
  | @step t child i hchild place levels key _ ih =>
    cases j with
    | zero => exact ⟨_, rfl, by rw [decide_eq_true_iff, List.take_succ_cons, List.take_zero,
        isLastChild_singleton_iff]⟩
    | succ j =>
      obtain ⟨isLast, hlevel, hiff⟩ := ih (Nat.lt_of_succ_lt_succ hj)
      have hne : place.take (j + 1) ≠ [] := by
        rw [← List.length_pos_iff, List.length_take]
        exact Nat.lt_min.2 ⟨Nat.succ_pos j, Nat.zero_lt_of_lt (Nat.lt_of_succ_lt_succ hj)⟩
      refine ⟨isLast, hlevel, hiff.trans ?_⟩
      rw [List.take_succ_cons, isLastChild_cons_iff hchild hne]

end ShownAt

/-- The row is the one of the place, under a root that has the given levels. -/
def ShownBelow (levels : List Bool) (t : Tree K) (place : List Nat) (row : OutlineRow K) : Prop :=
  ∃ below, t.ShownAt place below row.key ∧ row.isLast = levels ++ below

/-- A place in a child is one in the tree, with one step more. -/
theorem ShownBelow.cons {levels : List Bool} {t child : Tree K} {i : Nat}
    (hchild : t.children[i]? = some child) {place : List Nat} {row : OutlineRow K}
    (h : ShownBelow (levels ++ [decide (i + 1 = t.children.length)]) child place row) :
    ShownBelow levels t (i :: place) row := by
  obtain ⟨below, hshown, hlevels⟩ := h
  exact ⟨_, .step hchild hshown, by rw [hlevels, List.append_assoc, List.singleton_append]⟩

mutual

theorem forall₂_rowsBelow (levels : List Bool) : (t : Tree K) →
    List.Forall₂ (ShownBelow levels t) t.places (rowsBelow levels t)
  | .leaf key => .cons ⟨[], .root (.leaf key), (List.append_nil levels).symm⟩ .nil
  | .node key children => by
    rw [places, rowsBelow]
    exact .cons ⟨[], .root (.node key children), (List.append_nil levels).symm⟩
      (forall₂_rowsOfList levels (.node key children) [] children rfl)

private theorem forall₂_rowsOfList (levels : List Bool) (t : Tree K) (front : List (Tree K)) :
    (ts : List (Tree K)) → t.children = front ++ ts →
      List.Forall₂ (ShownBelow levels t) (placesOfList front.length ts) (rowsOfList levels ts)
  | [], _ => .nil
  | child :: ts, h => by
    have hchild : t.children[front.length]? = some child := by rw [h]; simp
    have hlast : ts.isEmpty = decide (front.length + 1 = t.children.length) := by
      rw [h]; cases ts <;> simp
    have hrest := forall₂_rowsOfList levels t (front ++ [child]) ts
      (by rw [h, List.append_assoc, List.singleton_append])
    rw [List.length_append] at hrest
    rw [placesOfList, rowsOfList, hlast]
    refine List.rel_append (List.forall₂_map_left_iff.2 ?_) hrest
    exact (forall₂_rowsBelow _ child).imp fun _ _ hshown => hshown.cons hchild

end

/-- The rows of an outline are those of the places in preorder. -/
theorem forall₂_outlineRows (t : Tree K) :
    List.Forall₂ (fun place row => t.ShownAt place row.isLast row.key) t.places t.outlineRows := by
  refine (forall₂_rowsBelow [] t).imp fun place row h => ?_
  obtain ⟨below, hshown, hlevels⟩ := h
  rwa [hlevels]

end Tree

end ChartParsing
