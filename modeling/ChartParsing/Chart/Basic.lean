import ChartParsing.Text.Literal

/-!
# Charts

A chart tells for every span of an input which keys derive it. Each such fact is an item; items are
numbered in the order of their creation and hold the ways in which they are put together from two
shorter items. The cells of a chart, one for each span, list the items over their span, and find
them by their keys.

## Main definitions

* `Span`, `Item`, `Cell`, `Chart`.
* `Cell.add`: a cell with one more item.
* `Chart.cell?`, `Chart.item?`, `Chart.itemsOver`: what a chart holds.
* `Chart.keyed`: the items in a cell with their keys.
* `Chart.parts`: the items that an item is put together from.
* `Item.text`, `Chart.text`: charts as they are shown.
-/

namespace ChartParsing

universe u

/-- A non-empty part of an input. -/
structure Span where
  /-- The number of input values. -/
  length : Nat
  /-- The position of the first one. -/
  start : Nat
deriving DecidableEq

/-- The position after the last value of a span. -/
def Span.stop (s : Span) : Nat := s.start + s.length

/-- Two items, by number, that stand side by side. -/
structure Joint where
  /-- The item of the left part. -/
  left : Nat
  /-- The item of the right part. -/
  right : Nat
deriving DecidableEq

/-- A key that derives a span. -/
structure Item (K : Type u) where
  /-- The key. -/
  key : K
  /-- The span that it derives. -/
  span : Span
  /-- The ways to put it together from shorter items. -/
  joints : List Joint
deriving DecidableEq

/-- An item without joints comes from a terminal rule. -/
def Item.isTerminal {K : Type u} (item : Item K) : Bool := item.joints.isEmpty

/-- The items over one span. They are kept twice, in the order of their creation and by their
keys. -/
structure Cell (K : Type u) where
  /-- The numbers of the items, in the order of creation. -/
  numbers : List Nat
  /-- The keys with the numbers of their items. -/
  entries : List (K × Nat)
deriving DecidableEq

namespace Cell

variable {K : Type u}

/-- The cell without items. -/
def empty : Cell K := ⟨[], []⟩

/-- The cell with one more item, for a key that it does not have yet. -/
def add (c : Cell K) (key : K) (number : Nat) : Cell K where
  numbers := c.numbers ++ [number]
  entries := c.entries ++ [(key, number)]

/-- The number of items in a cell. -/
def size (c : Cell K) : Nat := c.numbers.length

/-- The number of the item with a given key. -/
def get? [DecidableEq K] (c : Cell K) (key : K) : Option Nat := c.entries.lookup key

end Cell

/-- The cells and items for an input. -/
structure Chart (K : Type u) where
  /-- The number of input values. -/
  inputLength : Nat
  /-- The cells: the spans of length 1 by start, then those of length 2, and so on. -/
  rows : Array (Array (Cell K))
  /-- The items by number. -/
  items : Array (Item K)
deriving DecidableEq

namespace Chart

variable {K : Type u}

/-- The cell of the span with the given length and start. -/
def cell? (c : Chart K) (length start : Nat) : Option (Cell K) :=
  match length with
  | 0 => none
  | row + 1 => c.rows[row]?.bind (·[start]?)

/-- The cell of the whole input. -/
def root? (c : Chart K) : Option (Cell K) := c.cell? c.inputLength 0

/-- The item with the given number. -/
def item? (c : Chart K) (number : Nat) : Option (Item K) := c.items[number]?

/-- The items in a cell, in order, with the keys that the items have. -/
def keyed (c : Chart K) (cell : Cell K) : List (K × Nat) :=
  cell.numbers.filterMap fun number => (c.item? number).map fun item => (item.key, number)

/-- The numbers of the items over a span, none if there is no such cell. -/
def numbersOver (c : Chart K) (length start : Nat) : List Nat :=
  ((c.cell? length start).map Cell.numbers).getD []

/-- The items over a span. -/
def itemsOver (c : Chart K) (length start : Nat) : List (Item K) :=
  (c.numbersOver length start).filterMap c.item?

/-- The cells, shorter spans first and then by start. -/
def cells (c : Chart K) : List (Cell K) := c.rows.toList.flatMap Array.toList

/-- The items that an item is put together from. -/
def parts (c : Chart K) (number : Nat) : List Nat :=
  ((c.item? number).map fun item => item.joints.flatMap fun j => [j.left, j.right]).getD []

end Chart

/-! ### Texts -/

/-- An item on one line: the ends of its span, its key and the number of its joints. -/
def Item.text {K : Type u} [Literal K] (item : Item K) : String :=
  "(" ++ toString item.span.start ++ " - " ++ toString item.span.stop ++ ") "
    ++ literal item.key ++ " #derivations: " ++ toString item.joints.length

namespace Chart

variable {K : Type u} [Literal K]

/-- A joint by the keys of its two items. -/
def jointText? (c : Chart K) (joint : Joint) : Option String :=
  match c.item? joint.left, c.item? joint.right with
  | some left, some right => some (literal left.key ++ " + " ++ literal right.key)
  | _, _ => none

/-- An item with its joints, as a line. -/
def itemLine (c : Chart K) (item : Item K) : String :=
  item.text ++ " -- SRC: " ++ ", ".intercalate (item.joints.filterMap c.jointText?) ++ "\n"

/-- The cells of one length: a heading, then a line for each item. -/
def rowText (c : Chart K) (length : Nat) (cells : Array (Cell K)) : String :=
  "=== Span length " ++ toString length ++ " ===\n"
    ++ String.join (cells.toList.flatMap fun cell =>
      (cell.numbers.filterMap c.item?).map c.itemLine)

/-- A chart, row by row. -/
def text (c : Chart K) : String :=
  String.join (c.rows.toList.zipIdx.map fun (cells, row) => c.rowText (row + 1) cells)

end Chart

end ChartParsing
