import ChartParsing.Chart.Fill
import Mathlib.Data.List.Basic
import Mathlib.Data.List.Induction

/-!
# Cells and their items

A cell keeps its items twice, by number in the order of their creation and by key, and an item has
its key itself. One step creates an item and enters it into its cell in both ways, and no step
changes a key, so what a cell says of its items stays what they say of themselves.

## Main definitions

* `Cell.Agrees`, `OpenRow.Agrees`, `Chart.Agrees`: a cell agrees with the items, and all cells of a
  row or of a chart do.
* `Cell.numbered`: the cell of given keys under consecutive numbers.

## Main results

* `Cell.Agrees.add`: a cell to which an item is added agrees with the items.
* `OpenRow.cells_addCell`, `OpenRow.toList_items_addCell`: what a cell adds to a row.
* `OpenRow.Agrees.addCell`, `Chart.agrees_filled`: the cells of a row and of a chart agree with the
  items while they are filled.
* `Chart.keyed_eq`, `Chart.joinedIn_eq_of_agrees`: the keys of the items in a cell are those that
  they are found by, so cells are joined by these.
-/

namespace ChartParsing

universe u v

variable {K : Type u} {V : Type v}

/-! ### One cell -/

theorem item?_of_isPrefix {items items' : Array (Item K)}
    (h : items.toList <+: items'.toList) {number : Nat} {item : Item K}
    (hitem : items[number]? = some item) : items'[number]? = some item := by
  rw [← Array.getElem?_toList] at hitem ⊢
  obtain ⟨hlt, hget⟩ := List.getElem?_eq_some_iff.1 hitem
  rw [List.prefix_iff_getElem?.1 h number hlt, hget]

namespace Cell

/-- The cell of the given keys, numbered from `first`. -/
def numbered (keys : List K) (first : Nat) : Cell K where
  numbers := List.range' first keys.length
  entries := keys.zipIdx first

theorem numbered_concat (keys : List K) (key : K) (first : Nat) :
    numbered (keys ++ [key]) first = (numbered keys first).add key (first + keys.length) := by
  simp [numbered, add, List.range'_concat, List.zipIdx_append]

/-- A cell agrees with the items: the items that it lists are those that it finds by key, and it
finds them by the keys that they have. -/
structure Agrees (c : Cell K) (items : Array (Item K)) : Prop where
  /-- The same items are listed and found. -/
  numbers_eq : c.numbers = c.entries.map Prod.snd
  /-- An item is found by its own key. -/
  key_eq : ∀ entry ∈ c.entries, ∃ item, items[entry.2]? = some item ∧ item.key = entry.1

variable {c : Cell K} {items items' : Array (Item K)}

theorem agrees_empty (items : Array (Item K)) : (empty : Cell K).Agrees items where
  numbers_eq := rfl
  key_eq := nofun

/-- Items that are created leave what was said of the others as it is. -/
theorem Agrees.mono (h : c.Agrees items) (hpre : items.toList <+: items'.toList) :
    c.Agrees items' where
  numbers_eq := h.numbers_eq
  key_eq entry hentry := by
    obtain ⟨item, hitem, hkey⟩ := h.key_eq entry hentry
    exact ⟨item, item?_of_isPrefix hpre hitem, hkey⟩

/-- An item that is created and added is listed and found. -/
theorem Agrees.add (h : c.Agrees items) (item : Item K) :
    (c.add item.key items.size).Agrees (items.push item) where
  numbers_eq := by simp [Cell.add, h.numbers_eq]
  key_eq entry hentry := by
    rcases List.mem_append.1 hentry with hold | hnew
    · exact (h.mono (by simp)).key_eq entry hold
    · rw [List.mem_singleton.1 hnew]
      exact ⟨item, Array.getElem?_push_size, rfl⟩

end Cell

namespace OpenCell

/-- A cell that is filled has the keys of its contents, under the next numbers. -/
theorem filled_eq (items : Array (Item K)) (s : Span) (contents : List (K × List Joint)) :
    filled items s contents = ⟨.numbered (contents.map Prod.fst) items.size,
      items ++ (contents.map fun entry => (⟨entry.1, s, entry.2⟩ : Item K)).toArray⟩ := by
  induction contents using List.reverseRecOn with
  | nil => simp [filled, Cell.numbered, Cell.empty]
  | append_singleton contents entry ih =>
    have hstep : filled items s (contents ++ [entry]) =
        (filled items s contents).addItem ⟨entry.1, s, entry.2⟩ := by
      rw [filled, List.foldl_append]
      rfl
    rw [hstep, ih, addItem, List.map_append, List.map_singleton, Cell.numbered_concat]
    simp

theorem agrees_filled (items : Array (Item K)) (s : Span) (contents : List (K × List Joint)) :
    (filled items s contents).cell.Agrees (filled items s contents).items := by
  induction contents using List.reverseRecOn with
  | nil => exact Cell.agrees_empty items
  | append_singleton contents entry ih =>
    rw [filled, List.foldl_append]
    exact ih.add _

end OpenCell

/-! ### One row -/

namespace OpenRow

/-- The cells of a row agree with the items. -/
def Agrees (r : OpenRow K) : Prop := ∀ cell ∈ r.cells, cell.Agrees r.items

variable {r : OpenRow K}

theorem cells_addCell (r : OpenRow K) (s : Span) (contents : List (K × List Joint)) :
    (r.addCell s contents).cells =
      r.cells.push (.numbered (contents.map Prod.fst) r.items.size) := by
  rw [addCell, OpenCell.filled_eq]

theorem toList_items_addCell (r : OpenRow K) (s : Span) (contents : List (K × List Joint)) :
    (r.addCell s contents).items.toList =
      r.items.toList ++ contents.map fun entry => ⟨entry.1, s, entry.2⟩ := by
  rw [addCell, OpenCell.filled_eq, Array.toList_append]

theorem size_items_addCell (r : OpenRow K) (s : Span) (contents : List (K × List Joint)) :
    (r.addCell s contents).items.size = r.items.size + contents.length := by
  rw [← Array.length_toList, toList_items_addCell, List.length_append, List.length_map,
    Array.length_toList]

theorem Agrees.addCell (h : r.Agrees) (s : Span) (contents : List (K × List Joint)) :
    (r.addCell s contents).Agrees := by
  intro cell hcell
  rcases Array.mem_push.1 hcell with hold | rfl
  · exact (h cell hold).mono (toList_items_addCell r s contents ▸ List.prefix_append _ _)
  · exact OpenCell.agrees_filled r.items s contents

end OpenRow

/-! ### The chart -/

namespace Chart

/-- The cells of a chart agree with its items. -/
def Agrees (c : Chart K) : Prop := ∀ cell ∈ c.cells, cell.Agrees c.items

theorem mem_cells_of_cell? {c : Chart K} {length start : Nat} {cell : Cell K}
    (h : c.cell? length start = some cell) : cell ∈ c.cells := by
  cases length with
  | zero => cases h
  | succ row =>
    obtain ⟨cells, hcells, hcell⟩ := Option.bind_eq_some_iff.1 h
    exact List.mem_flatMap.2 ⟨cells, Array.mem_toList_iff.2 (Array.mem_of_getElem? hcells),
      Array.mem_toList_iff.2 (Array.mem_of_getElem? hcell)⟩

/-- Where a cell agrees with the items, it has the keys that they have. -/
theorem keyed_eq {c : Chart K} {cell : Cell K} (h : cell.Agrees c.items) :
    c.keyed cell = cell.entries := by
  have hread : ∀ entry ∈ cell.entries,
      ((c.item? entry.2).map fun item => (item.key, entry.2)) = some entry := fun entry hentry => by
    obtain ⟨item, hitem, hkey⟩ := h.key_eq entry hentry
    rw [item?, hitem, Option.map_some, hkey]
  rw [keyed, h.numbers_eq, List.filterMap_map]
  exact (List.filterMap_congr hread).trans List.filterMap_some

theorem map_snd_keyed {c : Chart K} {cell : Cell K} (h : cell.Agrees c.items) :
    (c.keyed cell).map Prod.snd = cell.numbers := by
  rw [keyed_eq h, h.numbers_eq]

section Joining

variable [DecidableEq K] {t : RuleTable K V} {c : Chart K} {left right : Cell K}

/-- Passing over a left item that nothing can be joined to leaves nothing out. -/
theorem joinedIn_eq (t : RuleTable K V) (c : Chart K) (left right : Cell K) :
    joinedIn t c left right = (c.keyed left).flatMap fun l => (c.keyed right).flatMap fun r =>
      (t.joining l.1 r.1).map fun key => (key, ⟨l.2, r.2⟩) := by
  refine congrArg List.flatten (List.map_congr_left fun l _ => ?_)
  cases hjoins : t.joinsFrom? l.1 with
  | none => simp [RuleTable.joining, hjoins]
  | some joins => simp [hjoins]

theorem joinedIn_eq_of_agrees (hleft : left.Agrees c.items) (hright : right.Agrees c.items) :
    joinedIn t c left right = left.entries.flatMap fun l => right.entries.flatMap fun r =>
      (t.joining l.1 r.1).map fun key => (key, ⟨l.2, r.2⟩) := by
  rw [joinedIn_eq, keyed_eq hleft, keyed_eq hright]

end Joining

/-! ### Filling -/

variable [DecidableEq K] [DecidableEq V] (t : RuleTable K V) (input : List V)

theorem openRow_succ (c : Chart K) (cells : Nat) :
    c.openRow t input (cells + 1) =
      (c.openRow t input cells).addCell ⟨c.rows.size + 1, cells⟩
        (c.contents t input ⟨c.rows.size + 1, cells⟩) := by
  rw [openRow, List.range_succ, List.foldl_append]
  rfl

theorem isPrefix_items_openRow (c : Chart K) {m n : Nat} (h : m ≤ n) :
    (c.openRow t input m).items.toList <+: (c.openRow t input n).items.toList := by
  induction h with
  | refl => exact List.prefix_rfl
  | step _ ih =>
    rw [openRow_succ, OpenRow.toList_items_addCell]
    exact ih.trans (List.prefix_append _ _)

theorem agrees_openRow (c : Chart K) (cells : Nat) : (c.openRow t input cells).Agrees := by
  induction cells with
  | zero => exact fun _ hcell => absurd hcell (Array.not_mem_empty _)
  | succ cells ih =>
    rw [openRow_succ]
    exact ih.addCell _ _

variable {t input}

theorem Agrees.addRow {c : Chart K} (h : c.Agrees) : (c.addRow t input).Agrees := by
  intro cell hcell
  rw [cells, Chart.addRow, Array.toList_push, List.flatMap_append, List.mem_append] at hcell
  rcases hcell with hold | hnew
  · exact (h cell hold).mono (isPrefix_items_openRow t input c (Nat.zero_le _))
  · rw [List.flatMap_singleton, Array.mem_toList_iff] at hnew
    exact agrees_openRow t input c _ cell hnew

/-- The cells of a chart agree with its items, however many rows are filled. -/
theorem agrees_filled (t : RuleTable K V) (input : List V) (rows : Nat) :
    (filled t input rows).Agrees := by
  induction rows with
  | zero => exact fun _ hcell => absurd hcell List.not_mem_nil
  | succ rows ih => exact ih.addRow

theorem agrees_ofInput (t : RuleTable K V) (input : List V) : (ofInput t input).Agrees :=
  agrees_filled t input input.length

theorem agrees_of_cell?_ofInput {length start : Nat} {cell : Cell K}
    (h : (ofInput t input).cell? length start = some cell) :
    cell.Agrees (ofInput t input).items :=
  agrees_filled t input input.length cell (mem_cells_of_cell? h)

end Chart

end ChartParsing
