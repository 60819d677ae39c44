import ChartParsing.Grammar.Basic

/-!
# Grammars under construction

A draft takes rules and start keys one at a time. A rule that is stated twice is a mistake, unless
it is added quietly; the first mistake is kept and reported when the draft is finished.

## Main definitions

* `GrammarError`: why a draft gives no grammar.
* `Draft.Step`: one addition to a draft.
* `Draft.add`, `Draft.ofSteps`, `Draft.finish`: make additions, then take the grammar.
-/

namespace ChartParsing

universe u v

/-- Why a draft gives no grammar. -/
inductive GrammarError (K : Type u) (V : Type v) where
  /-- A terminal rule was stated a second time. -/
  | duplicateTerminal (rule : TerminalRule K V)
  /-- A binary rule was stated a second time. -/
  | duplicateBinary (rule : BinaryRule K)
  /-- There is no start key. -/
  | missingStart
deriving DecidableEq

variable {K : Type u} {V : Type v}

/-- The error in words. -/
def GrammarError.message [Literal K] [Literal V] : GrammarError K V → String
  | .duplicateTerminal rule =>
    "Duplicate Rule: " ++ literal rule.key ++ " -> " ++ literal rule.output
  | .duplicateBinary rule =>
    "Duplicate Rule: " ++ literal rule.key ++ " -> " ++ literal rule.left ++ " "
      ++ literal rule.right
  | .missingStart => "Missing Start Key"

/-- The rules of a grammar under construction, and the first mistake made so far. -/
structure Draft (K : Type u) (V : Type v) where
  /-- What has been added, without repeats. -/
  rules : Rules K V
  /-- The first rule that was stated twice. -/
  mistake? : Option (GrammarError K V)
deriving DecidableEq

namespace Draft

/-- One addition to a draft. A quiet one may repeat a rule. -/
inductive Step (K : Type u) (V : Type v) where
  /-- Add a terminal rule. -/
  | terminal (rule : TerminalRule K V) (quiet : Bool)
  /-- Add a binary rule. -/
  | binary (rule : BinaryRule K) (quiet : Bool)
  /-- Add a start key; repeats are allowed. -/
  | start (key : K)
deriving DecidableEq

variable [DecidableEq K] [DecidableEq V]

/-- The draft without additions. -/
def empty : Draft K V := ⟨.empty, none⟩

/-- The mistake that a step is after what has been added: a rule stated twice, not quietly. -/
def Step.mistakeAfter? (r : Rules K V) : Step K V → Option (GrammarError K V)
  | .terminal rule quiet =>
    if !quiet && decide (rule ∈ r.terminals) then some (.duplicateTerminal rule) else none
  | .binary rule quiet =>
    if !quiet && decide (rule ∈ r.binaries) then some (.duplicateBinary rule) else none
  | .start _ => none

/-- What has been added, with what a step adds. -/
def Step.extend (r : Rules K V) : Step K V → Rules K V
  | .terminal rule _ => r.addTerminal rule
  | .binary rule _ => r.addBinary rule
  | .start key => r.addStart key

/-- Make one addition. An earlier mistake stays the one that is reported. -/
def add (d : Draft K V) (step : Step K V) : Draft K V where
  rules := step.extend d.rules
  mistake? := d.mistake?.or (step.mistakeAfter? d.rules)

/-- The draft after a sequence of additions. -/
def ofSteps (steps : List (Step K V)) : Draft K V :=
  steps.foldl add empty

/-- The finished grammar, made of the rules and start keys of the draft. A rule stated twice is
reported before a missing start key. -/
def finish (d : Draft K V) : Except (GrammarError K V) (Grammar K V) :=
  match d.mistake? with
  | some mistake => .error mistake
  | none =>
    if d.rules.starts.isEmpty then .error .missingStart
    else .ok (.ofRules d.rules.terminals d.rules.binaries d.rules.starts)

end Draft

end ChartParsing
