import ChartParsing.Chart.Fill
import ChartParsing.Chart.Forests
import ChartParsing.Chart.Progress

/-!
# Parsing

A parser holds a grammar and the table of its rules. It fills the chart of an input; the forests of
a parse are those of the items over the whole input whose keys are start keys.

## Main definitions

* `Parser`, `Parser.ofGrammar`.
* `Parser.chart`, `Parser.recognize`, `Parser.parse`: the chart of an input, whether the input can
  be derived, and its forests.
-/

namespace ChartParsing

universe u v

/-- Why an input is not parsed. -/
inductive ParseError where
  /-- The input holds no values. -/
  | emptyInput
deriving DecidableEq

/-- The error in words. -/
def ParseError.message : ParseError → String
  | .emptyInput => "Empty Input"

/-- A grammar with the table of its rules. -/
structure Parser (K : Type u) (V : Type v) [DecidableEq K] [DecidableEq V] where
  /-- The grammar. -/
  grammar : Grammar K V
  /-- Its rules by their right-hand sides. -/
  table : RuleTable K V
  /-- The table is that of the grammar. -/
  table_eq : table = .ofGrammar grammar

namespace Parser

variable {K : Type u} {V : Type v} [DecidableEq K] [DecidableEq V]

/-- The parser for a grammar. -/
def ofGrammar (grammar : Grammar K V) : Parser K V := ⟨grammar, .ofGrammar grammar, rfl⟩

/-- The chart of an input. An empty input is an error. -/
def chart (p : Parser K V) (input : List V) : Except ParseError (Chart K) :=
  if input.isEmpty then .error .emptyInput else .ok (.ofInput p.table input)

/-- The items over the whole input whose keys are start keys. -/
def roots (p : Parser K V) (c : Chart K) : List Nat :=
  match c.root? with
  | some cell => ((c.keyed cell).filter fun entry => p.grammar.isStart entry.1).map Prod.snd
  | none => []

/-- Whether a start key derives the input. -/
def recognize (p : Parser K V) (input : List V) : Except ParseError Bool :=
  (p.chart input).map fun c => !(p.roots c).isEmpty

/-- The forests of a chart: one for each start key that derives the input. -/
def forests (p : Parser K V) (c : Chart K) : SharedForests K :=
  c.forestsOf (p.roots c)

/-- The forests of an input. -/
def parse (p : Parser K V) (input : List V) : Except ParseError (SharedForests K) :=
  (p.chart input).map p.forests

/-- What is reported while an input is parsed. -/
def progress (p : Parser K V) (input : List V) : List Progress :=
  match p.chart input with
  | .ok c => c.progress ++ [.parsed (p.forests c).roots.length]
  | .error _ => []

end Parser

end ChartParsing
