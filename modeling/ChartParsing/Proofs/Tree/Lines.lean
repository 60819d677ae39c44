import ChartParsing.Proofs.Text.Literals
import ChartParsing.Proofs.Tree.Outlines

/-!
# Lines of outlines

The text of an outline gives back its rows: a level starts with a blank and the mark in front of a
key does not, so that it does not matter which characters the keys are made of, as long as they have
different texts without line breaks.

## Main definitions

* `OutlineRow.line`: the characters of a row, without the line break.
* `Tree.LineAt`: what the line of a place holds, group by group.

## Main results

* `OutlineRow.line_injective`: a line gives back its row.
* `Tree.splitOn_outline`: the lines of an outline.
* `Tree.outline_determines`: the outline gives back the tree once it is trimmed, and its lines are
  those of the places in preorder.
-/

namespace ChartParsing

universe u

variable {K : Type u}

/-! ### Levels -/

/-- The characters that stand for levels. -/
def levelsText (levels : List Bool) : List Char :=
  levels.flatMap fun isLast => (levelText isLast).toList

theorem levelsText_cons (isLast : Bool) (levels : List Bool) :
    levelsText (isLast :: levels) = (levelText isLast).toList ++ levelsText levels :=
  List.flatMap_cons

private theorem length_toList_levelText (isLast : Bool) : (levelText isLast).toList.length = 3 := by
  cases isLast <;> rfl

private theorem length_levelsText (levels : List Bool) :
    (levelsText levels).length = 3 * levels.length := by
  induction levels with
  | nil => rfl
  | cons isLast levels ih =>
    rw [levelsText_cons, List.length_append, length_toList_levelText, ih, List.length_cons,
      Nat.mul_succ, Nat.add_comm]

private theorem newline_notMem_levelsText (levels : List Bool) : '\n' ∉ levelsText levels := by
  rw [levelsText, List.mem_flatMap]
  rintro ⟨_ | _, -, h⟩ <;> exact absurd h (by decide)

/-- Each level has its group of three characters. -/
theorem take_drop_levelsText_append {levels : List Bool} {j : Nat} {isLast : Bool}
    (h : levels[j]? = some isLast) (rest : List Char) :
    ((levelsText levels ++ rest).drop (3 * j)).take 3 = (levelText isLast).toList := by
  induction levels generalizing j with
  | nil => cases h
  | cons first levels ih =>
    have hlength := length_toList_levelText first
    rw [levelsText_cons, List.append_assoc]
    cases j with
    | zero =>
      cases h
      exact List.take_left' hlength
    | succ j =>
      rw [Nat.mul_succ, Nat.add_comm, ← List.drop_drop, List.drop_left' hlength]
      exact ih h

private theorem levelText_injective :
    Function.Injective fun isLast => (levelText isLast).toList := by
  unfold Function.Injective
  decide

/-- A level is not the mark in front of a key. -/
theorem levelText_append_ne_mark_append (isLast : Bool) (rest rest' : List Char) :
    (levelText isLast).toList ++ rest ≠ "`-- ".toList ++ rest' := by
  cases isLast <;> simp [levelText]

/-- The mark in front of a key shows where the levels end. -/
theorem levelsText_append_inj {levels levels' : List Bool} {rest rest' : List Char}
    (h : levelsText levels ++ ("`-- ".toList ++ rest) =
      levelsText levels' ++ ("`-- ".toList ++ rest')) : levels = levels' ∧ rest = rest' := by
  induction levels generalizing levels' with
  | nil =>
    cases levels' with
    | nil => exact ⟨rfl, List.append_cancel_left h⟩
    | cons first' levels' =>
      rw [levelsText_cons, List.append_assoc] at h
      exact absurd h.symm (levelText_append_ne_mark_append first' _ rest)
  | cons first levels ih =>
    rw [levelsText_cons, List.append_assoc] at h
    cases levels' with
    | nil => exact absurd h (levelText_append_ne_mark_append first _ rest')
    | cons first' levels' =>
      rw [levelsText_cons, List.append_assoc] at h
      have hlength := (length_toList_levelText first).trans (length_toList_levelText first').symm
      obtain ⟨hfirst, hlevels⟩ := List.append_inj h hlength
      obtain ⟨hlevels, hrest⟩ := ih hlevels
      exact ⟨by rw [levelText_injective hfirst, hlevels], hrest⟩

/-! ### Lines -/

/-- Lines that are each ended by a line break are what the text is split into, with nothing after
the last of them. -/
theorem splitOn_flatMap_append_newline {lines : List (List Char)}
    (h : ∀ line ∈ lines, '\n' ∉ line) :
    (lines.flatMap (· ++ ['\n'])).splitOn '\n' = lines ++ [[]] := by
  induction lines with
  | nil => exact List.splitOn_nil '\n'
  | cons line lines ih =>
    rw [List.forall_mem_cons] at h
    rw [List.flatMap_cons, List.append_assoc, List.singleton_append,
      List.splitOn_append_cons_self, List.splitOn_eq_singleton h.1, ih h.2]
    rfl

namespace OutlineRow

variable [Literal K]

/-- The characters of a row, without the line break. -/
def line (row : OutlineRow K) : List Char :=
  levelsText row.isLast ++ ("`-- ".toList ++ (literal row.key).toList)

private theorem toList_text (row : OutlineRow K) : row.text.toList = row.line ++ ['\n'] := by
  simp [text, line, levelsText, String.toList_join, List.flatMap_map]

/-- A line gives back its row, if different keys have different texts. -/
theorem line_injective (hinj : Function.Injective (literal : K → String)) :
    Function.Injective (line : OutlineRow K → List Char) := by
  rintro ⟨levels, key⟩ ⟨levels', key'⟩ h
  obtain ⟨hlevels, htext⟩ := levelsText_append_inj h
  exact congrArg₂ OutlineRow.mk hlevels (hinj (String.toList_inj.1 htext))

private theorem newline_notMem_line {row : OutlineRow K} (h : '\n' ∉ (literal row.key).toList) :
    '\n' ∉ row.line := by
  rw [line, List.mem_append, List.mem_append]
  rintro (hmem | hmem | hmem)
  · exact newline_notMem_levelsText _ hmem
  · exact absurd hmem (by decide)
  · exact h hmem

end OutlineRow

namespace Tree

variable [Literal K]

theorem toList_outline (t : Tree K) :
    t.outline.toList = (t.outlineRows.map OutlineRow.line).flatMap (· ++ ['\n']) := by
  rw [outline, String.toList_join, List.flatMap_map, List.flatMap_map]
  exact List.flatMap_congr fun row _ => row.toList_text

/-- The lines of an outline are those of its rows. -/
theorem splitOn_outline (hline : ∀ key : K, '\n' ∉ (literal key).toList) (t : Tree K) :
    t.outline.toList.splitOn '\n' = t.outlineRows.map OutlineRow.line ++ [[]] := by
  rw [toList_outline, splitOn_flatMap_append_newline]
  refine List.forall_mem_map.2 fun row _ => OutlineRow.newline_notMem_line (hline row.key)

/-- Equal outlines are those of trees that are equal once they are trimmed. -/
theorem outline_eq_iff (hinj : Function.Injective (literal : K → String))
    (hline : ∀ key : K, '\n' ∉ (literal key).toList) {s t : Tree K} :
    s.outline = t.outline ↔ s.trimmed = t.trimmed := by
  rw [← outlineRows_eq_iff]
  constructor
  · intro h
    have hlines : s.outlineRows.map OutlineRow.line ++ [[]] =
        t.outlineRows.map OutlineRow.line ++ [[]] := by
      rw [← splitOn_outline hline, ← splitOn_outline hline, h]
    exact (OutlineRow.line_injective hinj).list_map (List.append_cancel_right hlines)
  · intro h
    rw [outline, outline, h]

/-- The line shows the place in the tree: a group of three characters for each step to the place,
blank if it is the step to the last child and otherwise with a bar, and then the key. -/
structure LineAt (t : Tree K) (place : List Nat) (line : List Char) : Prop where
  /-- The group of a step to a last child is blank. -/
  last : ∀ j, 1 ≤ j → j ≤ place.length → t.IsLastChild (place.take j) →
    (line.drop (3 * (j - 1))).take 3 = "   ".toList
  /-- The group of a step to any other child has a bar. -/
  notLast : ∀ j, 1 ≤ j → j ≤ place.length → ¬t.IsLastChild (place.take j) →
    (line.drop (3 * (j - 1))).take 3 = "  |".toList
  /-- The key stands behind the groups. -/
  key : ∃ s, t.subtree? place = some s ∧
    line.drop (3 * place.length) = "`-- ".toList ++ (literal s.key).toList

/-- The line of a row shows the place of the row. -/
theorem ShownAt.lineAt {t : Tree K} {place : List Nat} {row : OutlineRow K}
    (h : t.ShownAt place row.isLast row.key) : t.LineAt place row.line where
  last j hpos hle hlast := by
    obtain ⟨isLast, hlevel, hiff⟩ := h.exists_getElem? (Nat.sub_one_lt_of_le hpos hle)
    rw [Nat.sub_add_cancel hpos] at hiff
    rw [OutlineRow.line, take_drop_levelsText_append hlevel, hiff.2 hlast]
    rfl
  notLast j hpos hle hlast := by
    obtain ⟨isLast, hlevel, hiff⟩ := h.exists_getElem? (Nat.sub_one_lt_of_le hpos hle)
    rw [Nat.sub_add_cancel hpos] at hiff
    rw [OutlineRow.line, take_drop_levelsText_append hlevel,
      Bool.eq_false_iff.2 (mt hiff.1 hlast)]
    rfl
  key := by
    obtain ⟨s, hs, hkey⟩ := h.exists_subtree?
    refine ⟨s, hs, ?_⟩
    rw [OutlineRow.line, hkey, List.drop_left' ((length_levelsText _).trans (by rw [h.length_eq]))]

/-! ### Outlines -/

/-- **The outline determines the tree**, up to nodes without subtrees, which have the outlines of
leaves. It has one line for each place of the tree, in preorder, and each line shows its place. All
this holds for keys with different texts, which may have any characters except line breaks. -/
theorem outline_determines (hinj : Function.Injective (literal : K → String))
    (hline : ∀ key : K, '\n' ∉ (literal key).toList) :
    (∀ s t : Tree K, s.outline = t.outline ↔ s.trimmed = t.trimmed) ∧
    ∀ t : Tree K, t.places.Pairwise (· < ·) ∧
      (∀ place, place ∈ t.places ↔ (t.subtree? place).isSome) ∧ t.places.length = t.size ∧
      ∃ lines, t.outline.toList.splitOn '\n' = lines ++ [[]] ∧
        List.Forall₂ t.LineAt t.places lines := by
  refine ⟨fun _ _ => outline_eq_iff hinj hline, fun t => ⟨pairwise_places t,
    fun _ => mem_places_iff, length_places t, _, splitOn_outline hline t, ?_⟩⟩
  exact List.forall₂_map_right_iff.2 ((forall₂_outlineRows t).imp fun _ _ h => h.lineAt)

/-- With strings as keys, a node without subtrees has the outline of a leaf, even if its key looks
like a part of an outline. A child does not have the outline of a sibling. -/
theorem outline_determines_strings :
    Function.Injective (literal : String → String) ∧
      (∀ key : String, '\n' ∉ (literal key).toList) ∧
      (node "S" [node "A" [], leaf "  |\n`-- B"]).outline =
        (node "S" [leaf "A", leaf "  |\n`-- B"]).outline ∧
      (node "S" [node "A" [leaf "B"]]).outline ≠ (node "S" [leaf "A", leaf "B"]).outline ∧
      ∃ lines, (node "S" [node "A" [leaf "B"], leaf "C"]).outline.toList.splitOn '\n' =
          lines ++ [[]] ∧
        List.Forall₂ (node "S" [node "A" [leaf "B"], leaf "C"]).LineAt [[], [0], [0, 0], [1]]
          lines := by
  have h := outline_determines literal_string_injective newline_notMem_literal_string
  exact ⟨literal_string_injective, newline_notMem_literal_string, (h.1 _ _).2 rfl,
    fun heq => absurd ((h.1 _ _).1 heq) (by decide), (h.2 _).2.2.2⟩

end Tree

end ChartParsing
