import ChartParsing.Chart.Basic

/-!
# Progress of a parse

What is reported while a chart is filled and when a parse is done.

## Main definitions

* `Progress`: the reports, with their levels and texts.
* `Chart.progress`: the reports of filling a chart.
-/

namespace ChartParsing

universe u

/-- How detailed a report is. -/
inductive Detail where
  /-- A step on the way. -/
  | trace
  /-- A result. -/
  | debug
deriving DecidableEq

/-- A report. -/
inductive Progress where
  /-- All spans of a length have been filled; the number of items so far. -/
  | spansFilled (length items : Nat)
  /-- The chart is filled; the numbers of input values, items and cells. -/
  | chartFilled (inputLength items cells : Nat)
  /-- The forests of a parse have been built; their number. -/
  | parsed (forests : Nat)
deriving DecidableEq

namespace Progress

/-- Steps are traced and results are for debugging. -/
def detail : Progress → Detail
  | .spansFilled _ _ => .trace
  | .chartFilled _ _ _ => .debug
  | .parsed _ => .debug

/-- A report in words. -/
def text : Progress → String
  | .spansFilled length items =>
    "filled spans of length " ++ toString length ++ ": " ++ toString items ++ " matches so far"
  | .chartFilled inputLength items cells =>
    "chart for " ++ toString inputLength ++ " symbols: " ++ toString items ++ " matches over "
      ++ toString cells ++ " cells"
  | .parsed forests => "parse produced " ++ toString forests ++ " forest(s)"

end Progress

namespace Chart

variable {K : Type u}

/-- The items over spans of at most the given length. -/
def numbersUpTo (c : Chart K) (length : Nat) : List Nat :=
  (c.rows.toList.take length).flatMap fun cells => cells.toList.flatMap Cell.numbers

/-- The reports of filling a chart: one for each length from 2, and one for the whole. -/
def progress (c : Chart K) : List Progress :=
  ((List.range' 2 (c.inputLength - 1)).map fun length =>
      .spansFilled length (c.numbersUpTo length).length)
    ++ [.chartFilled c.inputLength c.items.size c.cells.length]

end Chart

end ChartParsing
