import ChartParsing.Proofs.Chart.Entries
import ChartParsing.Proofs.Distinct

/-!
# A rule table and a scan of the rules

A rule table saves a parser the scan of all rules for every pair of items. It has two ways to save
more: a key is listed once however many rules give it, and a left item is passed over without a look
at the right ones if no rule has its key on the left. Neither changes what is found: the table
answers as the scan does, and what is joined in two cells is what the answers give for all pairs.

## Main definitions

* `RuleTable.AnswersAsScan`: a table answers as a scan of a grammar's rules.

## Main results

* `RuleTable.ofGrammar_answersAsScan`: the table of a grammar does.
-/

namespace ChartParsing

universe u v

variable {K : Type u} {V : Type v} [DecidableEq K] [DecidableEq V]

namespace RuleTable

omit [DecidableEq V] in
/-- Passing over a left key is safe: nothing could be joined to it. -/
theorem joining_eq_nil_of_joinsFrom?_eq_none {t : RuleTable K V} {left : K}
    (h : t.joinsFrom? left = none) (right : K) : t.joining left right = [] := by
  rw [joining, h]

/-- The table answers from the rules of the grammar, and no joint is missed by asking it. -/
structure AnswersAsScan (t : RuleTable K V) (g : Grammar K V) : Prop where
  /-- A value is produced by the keys of the terminal rules for it, each once, in the order of the
  first such rules. -/
  producing (value : V) : FirstOccurrences
    ((g.terminals.filter fun rule => rule.output = value).map TerminalRule.key)
    (t.producing value)
  /-- Two keys are joined by the keys of the binary rules for them, each once, in the order of the
  first such rules. -/
  joining (left right : K) : FirstOccurrences
    ((g.binaries.filter fun rule => rule.left = left ∧ rule.right = right).map BinaryRule.key)
    (t.joining left right)
  /-- Nothing is known to be joined to a left key exactly when no rule has it on the left. -/
  joinsFrom?_eq_none_iff (left : K) :
    t.joinsFrom? left = none ↔ ∀ rule ∈ g.binaries, rule.left ≠ left
  /-- Then there is no answer for it with any right key. -/
  joining_eq_nil (left : K) : t.joinsFrom? left = none → ∀ right, t.joining left right = []
  /-- What is joined in two cells is what the answers give for every pair of their items, in
  order. -/
  joinedIn_eq (c : Chart K) (left right : Cell K) : Chart.joinedIn t c left right =
    (c.keyed left).flatMap fun (leftKey, leftItem) =>
      (c.keyed right).flatMap fun (rightKey, rightItem) =>
        (t.joining leftKey rightKey).map fun key => (key, ⟨leftItem, rightItem⟩)

/-- The table of a grammar answers as a scan of the grammar's rules. -/
theorem ofGrammar_answersAsScan (g : Grammar K V) : (ofGrammar g).AnswersAsScan g where
  producing value := firstOccurrences_iff.2 (producing_ofGrammar g value)
  joining left right := firstOccurrences_iff.2 (joining_ofGrammar g left right)
  joinsFrom?_eq_none_iff := joinsFrom?_ofGrammar_eq_none_iff g
  joining_eq_nil _ := joining_eq_nil_of_joinsFrom?_eq_none
  joinedIn_eq := Chart.joinedIn_eq _

/-- A rule and its temporary twin give one answer. -/
example : (ofGrammar (.ofRules ([] : List (TerminalRule Char Char)) [⟨'S', 'A', 'B', false⟩,
    ⟨'T', 'A', 'B', false⟩, ⟨'S', 'A', 'B', true⟩] [])).joining 'A' 'B' = ['S', 'T'] := by
  decide

end RuleTable

end ChartParsing
