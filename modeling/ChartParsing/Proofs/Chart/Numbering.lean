import ChartParsing.Proofs.Chart.Joints

/-!
# The numbering of a chart

A chart keeps its items by number, and its cells keep the numbers of the items over their spans,
with the keys for which they are looked up. A cell that is added takes the next numbers for its
items. So the cells, read by the length of their spans and then by their start, list all numbers in
order, and what a cell says of a number is what the item with this number says of itself.

## Main definitions

* `OpenRow.Counts`: the cells list all numbers in order, up to a row that is being filled.
* `Chart.Coherent`: rows, cells and items of a chart agree.

## Main results

* `OpenRow.Counts.addCell`, `Chart.counts_openRow`: a cell that is added takes the next numbers.
* `Chart.numbers_cells_ofInput`: the cells of a finished chart list all numbers in order.
* `Parser.chart_coherent`: the chart of an input is coherent.
-/

namespace ChartParsing

universe u v

variable {K : Type u} {V : Type v}

/-! ### Numbers of a row -/

/-- The numbers `before`, followed by those in the cells of the row, are the numbers of all items in
order. -/
def OpenRow.Counts (before : List Nat) (r : OpenRow K) : Prop :=
  before ++ r.cells.toList.flatMap Cell.numbers = List.range r.items.size

/-- A cell that is added takes the next numbers. -/
theorem OpenRow.Counts.addCell {before : List Nat} {r : OpenRow K} (h : r.Counts before) (s : Span)
    (contents : List (K × List Joint)) : (r.addCell s contents).Counts before := by
  have hcells : (r.addCell s contents).cells.toList.flatMap Cell.numbers =
      r.cells.toList.flatMap Cell.numbers ++ List.range' r.items.size contents.length := by
    simp [OpenRow.cells_addCell, Cell.numbered]
  calc before ++ (r.addCell s contents).cells.toList.flatMap Cell.numbers
      = List.range r.items.size ++ List.range' r.items.size contents.length := by
        rw [hcells, ← List.append_assoc, h]
    _ = List.range (r.addCell s contents).items.size := by
        rw [OpenRow.size_items_addCell, List.range_eq_range', List.range_eq_range',
          ← List.range'_append_1, Nat.zero_add]

namespace Chart

variable [DecidableEq K] [DecidableEq V]

section Rows

variable (t : RuleTable K V) (input : List V)

/-- The cells of a row take the numbers after those of the items that were there before it. -/
theorem counts_openRow {c : Chart K}
    (h : c.cells.flatMap Cell.numbers = List.range c.items.size) (cells : Nat) :
    (c.openRow t input cells).Counts (c.cells.flatMap Cell.numbers) := by
  induction cells with
  | zero => simpa [OpenRow.Counts, openRow] using h
  | succ cells ih =>
    rw [openRow_succ]
    exact ih.addCell _ _

private theorem cells_filled_succ (rows : Nat) :
    (filled t input (rows + 1)).cells =
      (filled t input rows).cells ++ (nextRow t input rows (input.length - rows)).cells.toList := by
  simp [cells, rows_filled_succ]

private theorem numbers_cells_filled (rows : Nat) :
    (filled t input rows).cells.flatMap Cell.numbers =
      List.range (filled t input rows).items.size := by
  induction rows with
  | zero => rfl
  | succ rows ih =>
    rw [cells_filled_succ, items_filled_succ, List.flatMap_append]
    exact counts_openRow t input ih _

/-- The cells of a finished chart list the numbers of all items in order. -/
theorem numbers_cells_ofInput :
    (ofInput t input).cells.flatMap Cell.numbers = List.range (ofInput t input).items.size :=
  numbers_cells_filled t input input.length

theorem size_row_ofInput {row : Nat} (h : row < input.length) :
    ((ofInput t input).rows[row]?).map Array.size = some (input.length - row) := by
  rw [ofInput, getElem?_rows_filled t input h, Option.map_some, nextRow, size_cells_openRow]

end Rows

/-! ### Coherent charts -/

/-- The rows, the cells and the items of a chart for `n` values agree. -/
structure Coherent (c : Chart K) (n : Nat) : Prop where
  /-- There is a row for each length, with a cell for each start. -/
  size_row : ∀ length, 1 ≤ length → length ≤ n →
    (c.rows[length - 1]?).map Array.size = some (n - length + 1)
  /-- There are no other rows. -/
  size_rows : c.rows.size = n
  /-- The cells list the numbers of all items in order. -/
  numbers_cells : c.cells.flatMap Cell.numbers = List.range c.items.size
  /-- An item stands over the span of the cell that lists it. -/
  span_eq : ∀ length start cell, c.cell? length start = some cell →
    ∀ number ∈ cell.numbers, ∃ item, c.item? number = some item ∧ item.span = ⟨length, start⟩
  /-- The items in a cell have different keys. -/
  pairwise_key_ne : ∀ length start cell, c.cell? length start = some cell →
    cell.numbers.Pairwise fun i j => ∀ a b, c.item? i = some a → c.item? j = some b → a.key ≠ b.key
  /-- Looking up a key in a cell finds the item with that key. -/
  get?_eq_some_iff : ∀ length start cell, c.cell? length start = some cell → ∀ key number,
    cell.get? key = some number ↔
      number ∈ cell.numbers ∧ ∃ item, c.item? number = some item ∧ item.key = key
  /-- The two items of a joint have smaller numbers, and their spans are not empty and make up the
  span of the item. -/
  joints : ∀ number item, c.item? number = some item → ∀ joint ∈ item.joints,
    joint.left < number ∧ joint.right < number ∧ ∃ l r, c.item? joint.left = some l ∧
      c.item? joint.right = some r ∧ 0 < l.span.length ∧ 0 < r.span.length ∧
      l.span.start = item.span.start ∧ l.span.stop = r.span.start ∧ r.span.stop = item.span.stop

variable {g : Grammar K V} {input : List V}

/-- The items in a cell have different keys. -/
theorem pairwise_key_ne {s : Span} {cell : Cell K}
    (hcell : (ofInput (.ofGrammar g) input).cell? s.length s.start = some cell) :
    cell.numbers.Pairwise fun i j => ∀ a b, (ofInput (.ofGrammar g) input).item? i = some a →
      (ofInput (.ofGrammar g) input).item? j = some b → a.key ≠ b.key := by
  rw [(agrees_of_cell?_ofInput hcell).numbers_eq, List.pairwise_map]
  refine (List.pairwise_map.1 (nodup_keys_entries hcell)).imp_of_mem ?_
  intro x y hx hy hne a b ha hb
  obtain ⟨_, hitem, -⟩ := Lists.exists_item ⟨cell, hcell, hx⟩
  obtain ⟨_, hitem', -⟩ := Lists.exists_item ⟨cell, hcell, hy⟩
  cases ha.symm.trans hitem
  cases hb.symm.trans hitem'
  exact hne

/-- The two items of a joint stand side by side over the span of the item. -/
theorem Lists.exists_items_of_mem_joints {s : Span} {key : K} {number : Nat} {item : Item K}
    (h : (ofInput (.ofGrammar g) input).Lists s key number)
    (hitem : (ofInput (.ofGrammar g) input).item? number = some item) {joint : Joint}
    (hjoint : joint ∈ item.joints) :
    ∃ l r, (ofInput (.ofGrammar g) input).item? joint.left = some l ∧
      (ofInput (.ofGrammar g) input).item? joint.right = some r ∧
      0 < l.span.length ∧ 0 < r.span.length ∧
      l.span.start = s.start ∧ l.span.stop = r.span.start ∧ r.span.stop = s.stop := by
  obtain ⟨n, hpos, hlt, rule, -, -, hl, hr⟩ := (h.mem_joints hitem).1 hjoint
  obtain ⟨_, hleft, -⟩ := hl.exists_item
  obtain ⟨_, hright, -⟩ := hr.exists_item
  refine ⟨_, _, hleft, hright, hpos, Nat.sub_pos_of_lt hlt, rfl, rfl, ?_⟩
  simp only [Span.stop]
  omega

/-- The chart of an input is coherent. -/
theorem coherent_ofInput (g : Grammar K V) (input : List V) :
    (ofInput (.ofGrammar g) input).Coherent input.length where
  size_row length hpos hle := by
    rw [size_row_ofInput (.ofGrammar g) input (by omega)]
    congr 1
    omega
  size_rows := size_rows_filled (.ofGrammar g) input input.length
  numbers_cells := numbers_cells_ofInput (.ofGrammar g) input
  span_eq length start cell hcell number hnumber := by
    rw [(agrees_of_cell?_ofInput hcell).numbers_eq] at hnumber
    obtain ⟨⟨key, _⟩, hentry, rfl⟩ := List.mem_map.1 hnumber
    have hlists : (ofInput (.ofGrammar g) input).Lists ⟨length, start⟩ key _ :=
      ⟨cell, hcell, hentry⟩
    obtain ⟨joints, hitem, -⟩ := hlists.exists_item
    exact ⟨_, hitem, rfl⟩
  pairwise_key_ne length start cell hcell := pairwise_key_ne (s := ⟨length, start⟩) hcell
  get?_eq_some_iff length start cell hcell key number := by
    rw [Chart.get?_eq_some_iff (s := ⟨length, start⟩) hcell, lists_iff_mem_numbersOver, numbersOver,
      hcell]
    rfl
  joints number item hitem joint hjoint := by
    have hlists := lists_of_item? hitem
    have hparts := partsBelow_ofInput g input number
    rw [parts_eq_children hitem] at hparts
    exact ⟨hparts _ (Item.left_mem_children hjoint), hparts _ (Item.right_mem_children hjoint),
      hlists.exists_items_of_mem_joints hitem hjoint⟩

end Chart

namespace Parser

variable [DecidableEq K] [DecidableEq V]

/-- **Rows, cells and items of a chart agree.** The chart of `n` values has `n - length + 1` cells
for each length from 1 to `n`. Its cells, by length and then by start, list all numbers in order. An
item that a cell lists stands over the span of the cell; no other item there has its key, and it is
what the cell has for this key. The two items of a joint come before the item that they make up, and
they divide its span. -/
theorem chart_coherent (g : Grammar K V) {input : List V} (hinput : input ≠ []) :
    ∃ c, (ofGrammar g).chart input = .ok c ∧ c.Coherent input.length :=
  ⟨_, chart_of_ne_nil _ hinput, Chart.coherent_ofInput g input⟩

/-- In the chart of `abab` the nine items are numbered cell by cell, and the item for the whole
input comes last. -/
theorem chart_coherent_pairs :
    ['a', 'b', 'a', 'b'] ≠ [] ∧ ∃ c, (ofGrammar .pairs).chart ['a', 'b', 'a', 'b'] = .ok c ∧
      c.Coherent 4 ∧ c.cells.map Cell.numbers =
        [[0], [1], [2], [3], [4], [5], [6], [], [7], [8]] ∧
      c.item? 8 = some ⟨'S', ⟨4, 0⟩, [⟨0, 7⟩, ⟨4, 6⟩]⟩ := by
  have hinput : ['a', 'b', 'a', 'b'] ≠ [] := List.cons_ne_nil _ _
  obtain ⟨c, hc, hcoherent⟩ := chart_coherent Grammar.pairs hinput
  refine ⟨hinput, c, hc, hcoherent, ?_, ?_⟩
  · cases hc
    rfl
  · cases hc
    rfl

end Parser

end ChartParsing
