import ChartParsing.Proofs.Chart.Agreement

/-!
# How a chart grows

A chart is filled cell by cell and row by row. A step appends to what is there: the cells of earlier
rows and the items that have numbers stay as they are. What a cell holds depends on the cells of
shorter spans only, so it can be read off the finished chart.

## Main definitions

* `Span.Within`: the spans of an input.
* `Chart.newItems`: the items that a cell adds.
* `Chart.firstOver`: the number of the first item that a cell adds.

## Main results

* `Chart.cell?_ofInput`, `Chart.item?_ofInput`: the cells and items of a finished chart, from the
  contents that the same chart gives them.
* `Chart.exists_span_of_lt`: every item stands in some cell.
* `Chart.firstOver_add_lt`: the items of earlier cells have smaller numbers.
-/

namespace ChartParsing

universe u v

/-- The spans of an input with the given number of values. -/
structure Span.Within (s : Span) (inputLength : Nat) : Prop where
  /-- A span is not empty. -/
  length_pos : 0 < s.length
  /-- A span ends in the input. -/
  stop_le : s.stop ≤ inputLength

theorem Span.within_whole {V : Type u} {input : List V} (h : input ≠ []) :
    Span.Within ⟨input.length, 0⟩ input.length :=
  ⟨List.length_pos_iff.2 h, by simp [Span.stop]⟩

theorem Span.Within.leftPart {s : Span} {inputLength n : Nat} (h : s.Within inputLength)
    (hpos : 0 < n) (hlt : n < s.length) : Span.Within ⟨n, s.start⟩ inputLength := by
  have hstop := h.stop_le
  simp only [Span.stop] at hstop
  exact ⟨hpos, by simp only [Span.stop]; omega⟩

theorem Span.Within.rightPart {s : Span} {inputLength n : Nat} (h : s.Within inputLength)
    (hlt : n < s.length) : Span.Within ⟨s.length - n, s.start + n⟩ inputLength := by
  have hstop := h.stop_le
  simp only [Span.stop] at hstop
  exact ⟨Nat.sub_pos_of_lt hlt, by simp only [Span.stop]; omega⟩

variable {K : Type u} {V : Type v} [DecidableEq K] [DecidableEq V]

namespace Chart

variable (t : RuleTable K V) (input : List V)

/-- The items that the cell of a span adds to a chart. -/
def newItems (c : Chart K) (s : Span) : List (Item K) :=
  (c.contents t input s).map fun entry => ⟨entry.1, s, entry.2⟩

/-! ### One row -/

theorem size_cells_openRow (c : Chart K) (cells : Nat) :
    (c.openRow t input cells).cells.size = cells := by
  induction cells with
  | zero => rfl
  | succ cells ih => rw [openRow_succ, OpenRow.cells_addCell, Array.size_push, ih]

theorem toList_items_openRow_succ (c : Chart K) (cells : Nat) :
    (c.openRow t input (cells + 1)).items.toList =
      (c.openRow t input cells).items.toList ++ c.newItems t input ⟨c.rows.size + 1, cells⟩ := by
  rw [openRow_succ, OpenRow.toList_items_addCell, newItems]

/-- A cell of a row lists the keys of its contents, numbered from the number of items that were
there before it. -/
theorem getElem?_cells_openRow (c : Chart K) {start cells : Nat} (h : start < cells) :
    (c.openRow t input cells).cells[start]? =
      some (.numbered ((c.contents t input ⟨c.rows.size + 1, start⟩).map Prod.fst)
        (c.openRow t input start).items.size) := by
  induction cells with
  | zero => exact absurd h (Nat.not_lt_zero start)
  | succ cells ih =>
    have hsize := size_cells_openRow t input c cells
    rw [openRow_succ, OpenRow.cells_addCell]
    by_cases hlt : start < cells
    · rw [Array.getElem?_push_lt (hsize.symm ▸ hlt), ← Array.getElem?_eq_getElem]
      exact ih hlt
    · obtain rfl : start = cells := by omega
      rw [Array.getElem?_push, if_pos hsize.symm]

private theorem lt_size_items_openRow (c : Chart K) {number cells : Nat}
    (h : number < (c.openRow t input cells).items.size) :
    number < c.items.size ∨ ∃ start < cells, (c.openRow t input start).items.size ≤ number ∧
      number < (c.openRow t input (start + 1)).items.size := by
  induction cells with
  | zero => exact .inl h
  | succ cells ih =>
    by_cases hlt : number < (c.openRow t input cells).items.size
    · obtain hold | ⟨start, hstart, hle, hlt⟩ := ih hlt
      · exact .inl hold
      · exact .inr ⟨start, Nat.lt_succ_of_lt hstart, hle, hlt⟩
    · exact .inr ⟨cells, Nat.lt_succ_self cells, Nat.le_of_not_lt hlt, h⟩

/-! ### The rows together -/

theorem size_rows_filled (rows : Nat) : (filled t input rows).rows.size = rows := by
  induction rows with
  | zero => rfl
  | succ rows ih => rw [filled, addRow, Array.size_push, ih]

theorem inputLength_filled (rows : Nat) : (filled t input rows).inputLength = input.length := by
  induction rows with
  | zero => rfl
  | succ rows ih => rw [filled, addRow, ih]

/-- The row of the spans of the next length, filled up to a number of cells. -/
def nextRow (rows cells : Nat) : OpenRow K :=
  (filled t input rows).openRow t input cells

theorem rows_filled_succ (rows : Nat) :
    (filled t input (rows + 1)).rows =
      (filled t input rows).rows.push (nextRow t input rows (input.length - rows)).cells := by
  rw [filled, addRow, nextRow, inputLength_filled, size_rows_filled]

theorem items_filled_succ (rows : Nat) :
    (filled t input (rows + 1)).items = (nextRow t input rows (input.length - rows)).items := by
  rw [filled, addRow, nextRow, inputLength_filled, size_rows_filled]

theorem getElem?_rows_filled {row rows : Nat} (h : row < rows) :
    (filled t input rows).rows[row]? =
      some (nextRow t input row (input.length - row)).cells := by
  induction rows with
  | zero => exact absurd h (Nat.not_lt_zero row)
  | succ rows ih =>
    have hsize := size_rows_filled t input rows
    rw [rows_filled_succ]
    by_cases hlt : row < rows
    · rw [Array.getElem?_push_lt (hsize.symm ▸ hlt), ← Array.getElem?_eq_getElem]
      exact ih hlt
    · obtain rfl : row = rows := by omega
      rw [Array.getElem?_push, if_pos hsize.symm]

theorem isPrefix_items_nextRow {row rows start : Nat} (hrow : row < rows)
    (hstart : start ≤ input.length - row) :
    (nextRow t input row start).items.toList <+: (filled t input rows).items.toList := by
  induction rows with
  | zero => exact absurd hrow (Nat.not_lt_zero row)
  | succ rows ih =>
    rw [items_filled_succ]
    by_cases hlt : row < rows
    · exact (ih hlt).trans (isPrefix_items_openRow t input _ (Nat.zero_le _))
    · obtain rfl : row = rows := by omega
      exact isPrefix_items_openRow t input _ hstart

theorem cell?_filled_of_le {length row rows : Nat} (hlength : length ≤ row) (hrow : row ≤ rows)
    (start : Nat) :
    (filled t input rows).cell? length start = (filled t input row).cell? length start := by
  cases length with
  | zero => rfl
  | succ length =>
    rw [cell?, cell?, getElem?_rows_filled t input (Nat.lt_of_lt_of_le hlength hrow),
      getElem?_rows_filled t input hlength]

/-- The contents of a span depend on the cells of shorter spans only. -/
theorem contents_congr {c d : Chart K} (hc : c.Agrees) (hd : d.Agrees) {s : Span}
    (h : ∀ length < s.length, ∀ start, c.cell? length start = d.cell? length start) :
    c.contents t input s = d.contents t input s := by
  have hjoined : c.joined t s = d.joined t s := by
    unfold joined
    refine congrArg List.flatten (List.map_congr_left fun leftLength hmem => ?_)
    rw [List.mem_range'_1] at hmem
    have hleft := h leftLength (by omega) s.start
    have hright := h (s.length - leftLength) (by omega) (s.start + leftLength)
    rw [hleft, hright]
    split
    · next left right hl hr =>
      rw [joinedIn_eq_of_agrees (hc _ (mem_cells_of_cell? (hleft.trans hl)))
          (hc _ (mem_cells_of_cell? (hright.trans hr))),
        joinedIn_eq_of_agrees (hd _ (mem_cells_of_cell? hl)) (hd _ (mem_cells_of_cell? hr))]
    · rfl
  rw [contents, contents, hjoined]

private theorem contents_filled {row rows : Nat} (h : row ≤ rows) {s : Span}
    (hs : s.length ≤ row + 1) :
    (filled t input rows).contents t input s = (filled t input row).contents t input s :=
  contents_congr t input (agrees_filled t input rows) (agrees_filled t input row)
    fun length hlength start => cell?_filled_of_le t input (by omega) h start

/-! ### The finished chart -/

/-- The number of the first item that the cell of a span adds. -/
def firstOver (s : Span) : Nat :=
  (nextRow t input (s.length - 1) s.start).items.size

variable {t input}

private theorem contents_filled_pred {s : Span} (hs : s.Within input.length) :
    (filled t input (s.length - 1)).contents t input s =
      (ofInput t input).contents t input s := by
  have hpos := hs.length_pos
  have hstop := hs.stop_le
  rw [Span.stop] at hstop
  exact (contents_filled t input (by omega) (by omega)).symm

theorem toList_items_nextRow_succ {s : Span} (hs : s.Within input.length) :
    (nextRow t input (s.length - 1) (s.start + 1)).items.toList =
      (nextRow t input (s.length - 1) s.start).items.toList ++
        (ofInput t input).newItems t input s := by
  have hrow : (⟨s.length - 1 + 1, s.start⟩ : Span) = s := by
    rw [Nat.sub_add_cancel hs.length_pos]
  rw [nextRow, toList_items_openRow_succ, size_rows_filled, hrow, newItems, newItems,
    contents_filled_pred hs]
  rfl

/-- The cell of a span lists the keys of its contents under consecutive numbers. -/
theorem cell?_ofInput {s : Span} (hs : s.Within input.length) :
    (ofInput t input).cell? s.length s.start =
      some (.numbered (((ofInput t input).contents t input s).map Prod.fst)
        (firstOver t input s)) := by
  obtain ⟨length, start⟩ := s
  obtain ⟨hpos, hstop⟩ := hs
  obtain ⟨row, rfl⟩ : ∃ row, length = row + 1 := ⟨length - 1, (Nat.sub_add_cancel hpos).symm⟩
  simp only [Span.stop] at hstop
  have hcell := getElem?_cells_openRow t input (filled t input row)
    (show start < input.length - row by omega)
  have hcontents : (filled t input row).contents t input ⟨row + 1, start⟩ =
      (ofInput t input).contents t input ⟨row + 1, start⟩ :=
    contents_filled_pred ⟨hpos, hstop⟩
  rw [size_rows_filled, hcontents] at hcell
  rw [cell?, ofInput, getElem?_rows_filled t input (by omega)]
  exact hcell

theorem numbersOver_ofInput {s : Span} (hs : s.Within input.length) :
    (ofInput t input).numbersOver s.length s.start =
      List.range' (firstOver t input s) ((ofInput t input).contents t input s).length := by
  rw [numbersOver, cell?_ofInput hs, Option.map_some, Option.getD_some, Cell.numbered,
    List.length_map]

theorem item?_ofInput {s : Span} (hs : s.Within input.length) {i : Nat} {entry : K × List Joint}
    (h : ((ofInput t input).contents t input s)[i]? = some entry) :
    (ofInput t input).item? (firstOver t input s + i) = some ⟨entry.1, s, entry.2⟩ := by
  have hpos := hs.length_pos
  have hstop := hs.stop_le
  rw [Span.stop] at hstop
  have hpre : (nextRow t input (s.length - 1) (s.start + 1)).items.toList <+:
      (ofInput t input).items.toList :=
    isPrefix_items_nextRow t input (by omega) (by omega)
  refine item?_of_isPrefix hpre ?_
  rw [← Array.getElem?_toList, toList_items_nextRow_succ hs, firstOver, ← Array.length_toList,
    List.getElem?_append_right (Nat.le_add_right _ _), Nat.add_sub_cancel_left, newItems,
    List.getElem?_map, h]
  rfl

/-- A chart has no cells but those of the spans of its input. -/
theorem within_of_cell?_ofInput {length start : Nat} {cell : Cell K}
    (h : (ofInput t input).cell? length start = some cell) :
    Span.Within ⟨length, start⟩ input.length := by
  cases length with
  | zero => cases h
  | succ row =>
    obtain ⟨cells, hcells, hcell⟩ := Option.bind_eq_some_iff.1 h
    have hrow : row < (ofInput t input).rows.size := (Array.getElem?_eq_some_iff.1 hcells).1
    rw [ofInput, size_rows_filled] at hrow
    rw [ofInput, getElem?_rows_filled t input hrow] at hcells
    cases hcells
    have hstart := (Array.getElem?_eq_some_iff.1 hcell).1
    rw [nextRow, size_cells_openRow] at hstart
    exact ⟨Nat.succ_pos row, by simp only [Span.stop]; omega⟩

/-- Every item belongs to a cell. -/
theorem exists_span_of_lt {number : Nat} (h : number < (ofInput t input).items.size) :
    ∃ s : Span, s.Within input.length ∧ firstOver t input s ≤ number ∧
      number < firstOver t input s + ((ofInput t input).contents t input s).length := by
  have hrows : ∀ rows, number < (filled t input rows).items.size →
      ∃ row < rows, ∃ start < input.length - row, (nextRow t input row start).items.size ≤ number ∧
        number < (nextRow t input row (start + 1)).items.size := by
    intro rows hlt
    induction rows with
    | zero => exact absurd hlt (Nat.not_lt_zero number)
    | succ rows ih =>
      rw [items_filled_succ] at hlt
      obtain hold | ⟨start, hstart, hle, hlt⟩ := lt_size_items_openRow t input _ hlt
      · obtain ⟨row, hrow, hfound⟩ := ih hold
        exact ⟨row, Nat.lt_succ_of_lt hrow, hfound⟩
      · exact ⟨rows, Nat.lt_succ_self rows, start, hstart, hle, hlt⟩
  obtain ⟨row, hrow, start, hstart, hle, hlt⟩ := hrows input.length h
  have hs : Span.Within ⟨row + 1, start⟩ input.length :=
    ⟨Nat.succ_pos row, by simp only [Span.stop]; omega⟩
  refine ⟨⟨row + 1, start⟩, hs, hle, ?_⟩
  have hlength := congrArg List.length (toList_items_nextRow_succ (t := t) hs)
  simp only [List.length_append, Array.length_toList, newItems, List.length_map] at hlength
  exact hlength ▸ hlt

/-- Items over shorter spans, and over spans of one length those further to the left, have smaller
numbers. -/
theorem firstOver_add_lt {s s' : Span} (hs : s.Within input.length)
    (hlt : s.length < s'.length ∨ s.length = s'.length ∧ s.start < s'.start) {i : Nat}
    (hi : i < ((ofInput t input).contents t input s).length) :
    firstOver t input s + i < firstOver t input s' := by
  have hpos := hs.length_pos
  have hstop := hs.stop_le
  rw [Span.stop] at hstop
  have hlength := congrArg List.length (toList_items_nextRow_succ (t := t) hs)
  simp only [List.length_append, Array.length_toList, newItems, List.length_map] at hlength
  have hpre : (nextRow t input (s.length - 1) (s.start + 1)).items.toList <+:
      (nextRow t input (s'.length - 1) s'.start).items.toList := by
    obtain hlt | ⟨heq, hlt⟩ := hlt
    · exact (isPrefix_items_nextRow t input (by omega) (by omega)).trans
        (isPrefix_items_openRow t input _ (Nat.zero_le _))
    · rw [← heq]
      exact isPrefix_items_openRow t input _ hlt
  have hle := hpre.length_le
  simp only [Array.length_toList] at hle
  rw [firstOver, firstOver]
  omega

end Chart

end ChartParsing
