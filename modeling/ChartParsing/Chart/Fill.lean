import ChartParsing.Chart.Basic
import ChartParsing.Grammar.RuleTable

/-!
# Filling a chart

The cells of spans of length 1 come from the terminal rules. The cell of a longer span comes from
the cells of its two parts, for every place to divide it: each pair of items there is joined under
every key with a binary rule for their keys. Rows are filled by increasing length, so both parts of
a span are complete when they are read.

## Main definitions

* `Chart.joined`: the pairs of items that make up a span, under the keys that join them.
* `Chart.contents`: the keys of a cell with their joints.
* `OpenCell.addItem`, `OpenRow.addCell`: the steps by which a row is filled.
* `Chart.filled`, `Chart.ofInput`: the chart after some rows, and the whole chart.
-/

namespace ChartParsing

universe u v

variable {K : Type u} {V : Type v} [DecidableEq K] [DecidableEq V]

namespace Chart

/-- The items of two cells joined, left items in order and for each the right items in order. A left
item is passed over if nothing can be joined to its key. -/
def joinedIn (t : RuleTable K V) (c : Chart K) (left right : Cell K) : List (K × Joint) :=
  (c.keyed left).flatMap fun (leftKey, leftItem) =>
    if (t.joinsFrom? leftKey).isNone then []
    else (c.keyed right).flatMap fun (rightKey, rightItem) =>
      (t.joining leftKey rightKey).map fun key => (key, ⟨leftItem, rightItem⟩)

/-- The items that make up a span joined, for each length of the left part. -/
def joined (t : RuleTable K V) (c : Chart K) (s : Span) : List (K × Joint) :=
  (List.range' 1 (s.length - 1)).flatMap fun leftLength =>
    match c.cell? leftLength s.start,
      c.cell? (s.length - leftLength) (s.start + leftLength) with
    | some left, some right => joinedIn t c left right
    | _, _ => []

/-- The keys that derive a span, each with its joints: by terminal rules over one input value, by
binary rules over more. -/
def contents (t : RuleTable K V) (input : List V) (c : Chart K) (s : Span) :
    List (K × List Joint) :=
  if s.length = 1 then
    match input[s.start]? with
    | some value => (t.producing value).map fun key => (key, [])
    | none => []
  else grouped (joined t c s)

end Chart

/-- A cell being filled, with all items so far. -/
structure OpenCell (K : Type u) where
  /-- The cell so far. -/
  cell : Cell K
  /-- The items so far, those of other cells included. -/
  items : Array (Item K)

/-- Create an item for a key that the cell does not have yet. It takes the next number. -/
def OpenCell.addItem {K : Type u} (c : OpenCell K) (item : Item K) : OpenCell K where
  cell := c.cell.add item.key c.items.size
  items := c.items.push item

/-- The cell of a span with the given contents, filled item by item. -/
def OpenCell.filled {K : Type u} (items : Array (Item K)) (s : Span)
    (contents : List (K × List Joint)) : OpenCell K :=
  contents.foldl (fun c entry => c.addItem ⟨entry.1, s, entry.2⟩) ⟨.empty, items⟩

/-- A row of cells being filled, with all items so far. -/
structure OpenRow (K : Type u) where
  /-- The cells of the row so far. -/
  cells : Array (Cell K)
  /-- The items so far, those of earlier rows included. -/
  items : Array (Item K)

/-- Add the cell of a span with the given contents. -/
def OpenRow.addCell {K : Type u} (r : OpenRow K) (s : Span) (contents : List (K × List Joint)) :
    OpenRow K where
  cells := r.cells.push (OpenCell.filled r.items s contents).cell
  items := (OpenCell.filled r.items s contents).items

namespace Chart

/-- The next row of a chart, filled up to the given number of cells. -/
def openRow (t : RuleTable K V) (input : List V) (c : Chart K) (cells : Nat) : OpenRow K :=
  (List.range cells).foldl
    (fun row start =>
      let s : Span := ⟨c.rows.size + 1, start⟩
      row.addCell s (c.contents t input s))
    ⟨#[], c.items⟩

/-- The chart with its next row. -/
def addRow (t : RuleTable K V) (input : List V) (c : Chart K) : Chart K :=
  let row := c.openRow t input (c.inputLength - c.rows.size)
  { c with rows := c.rows.push row.cells, items := row.items }

/-- The chart of an input with its first rows filled. -/
def filled (t : RuleTable K V) (input : List V) : Nat → Chart K
  | 0 => ⟨input.length, #[], #[]⟩
  | rows + 1 => (filled t input rows).addRow t input

/-- The chart of an input. -/
def ofInput (t : RuleTable K V) (input : List V) : Chart K :=
  filled t input input.length

end Chart

end ChartParsing
