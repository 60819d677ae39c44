import ChartParsing.Proofs.Chart.Membership
import ChartParsing.Proofs.Distinct
import ChartParsing.Proofs.Related

/-!
# Parsing without regard to flags

Rules that differ in the flag alone are different rules, so a change of flags may change how many
rules a grammar has. The table of a grammar drops repeats a second time, when it lists keys, and by
then the flags are gone: what it answers depends on the rules as they were given, flags apart. A
chart is filled from these answers alone.

## Main definitions

* `TerminalRule.EqUpToFlag`, `BinaryRule.EqUpToFlag`: rules that may differ in the flag.
* `RuleTable.Agrees`: two tables give the same answers.

## Main results

* `RuleTable.producing_ofRules`, `RuleTable.joining_ofRules`: the answers for given rules.
* `RuleTable.Agrees.ofInput_eq`: tables with the same answers fill the same chart.
* `Parser.parse_ignores_flags`: parsing does not depend on flags.
-/

namespace ChartParsing

universe u v

variable {K : Type u} {V : Type v}

/-! ### Rules up to their flags -/

/-- The rules are for the same key and the same output. -/
structure TerminalRule.EqUpToFlag (a b : TerminalRule K V) : Prop where
  /-- The keys are the same. -/
  key_eq : a.key = b.key
  /-- The outputs are the same. -/
  output_eq : a.output = b.output

/-- The rules are for the same key and the same pair of keys. -/
structure BinaryRule.EqUpToFlag (a b : BinaryRule K) : Prop where
  /-- The keys are the same. -/
  key_eq : a.key = b.key
  /-- The left keys are the same. -/
  left_eq : a.left = b.left
  /-- The right keys are the same. -/
  right_eq : a.right = b.right

variable [DecidableEq K] [DecidableEq V]

namespace RuleTable

variable {t t' : RuleTable K V}

/-! ### Answers for given rules -/

/-- The keys that produce a value, from the rules that a grammar is made of. -/
theorem producing_ofRules (terminals : List (TerminalRule K V)) (binaries : List (BinaryRule K))
    (starts : List K) (value : V) :
    (ofGrammar (.ofRules terminals binaries starts)).producing value =
      distinct ((terminals.filter fun rule => rule.output = value).map TerminalRule.key) := by
  rw [producing_ofGrammar, Grammar.terminals_ofRules, filter_distinct, distinct_map_distinct]

/-- The keys that join two keys, from the rules that a grammar is made of. -/
theorem joining_ofRules (terminals : List (TerminalRule K V)) (binaries : List (BinaryRule K))
    (starts : List K) (left right : K) :
    (ofGrammar (.ofRules terminals binaries starts)).joining left right =
      distinct ((binaries.filter fun rule => rule.left = left ∧ rule.right = right).map
        BinaryRule.key) := by
  rw [joining_ofGrammar, Grammar.binaries_ofRules, filter_distinct, distinct_map_distinct]

/-! ### Tables with the same answers -/

/-- The tables give the same answers. -/
structure Agrees (t t' : RuleTable K V) : Prop where
  /-- The same keys produce a value. -/
  producing_eq : ∀ value, t.producing value = t'.producing value
  /-- The same keys join two keys. -/
  joining_eq : ∀ left right, t.joining left right = t'.joining left right

/-- What a table answers does not depend on the flags of the rules. -/
theorem agrees_ofRules {terminals terminals' : List (TerminalRule K V)}
    {binaries binaries' : List (BinaryRule K)} (starts : List K)
    (hterminals : List.Forall₂ TerminalRule.EqUpToFlag terminals terminals')
    (hbinaries : List.Forall₂ BinaryRule.EqUpToFlag binaries binaries') :
    Agrees (ofGrammar (.ofRules terminals binaries starts))
      (ofGrammar (.ofRules terminals' binaries' starts)) where
  producing_eq value := by
    rw [producing_ofRules, producing_ofRules]
    refine congrArg distinct (map_filter_congr_forall₂ ?_ ?_ hterminals)
    · intro a b h
      rw [h.output_eq]
    · exact fun a b h => h.key_eq
  joining_eq left right := by
    rw [joining_ofRules, joining_ofRules]
    refine congrArg distinct (map_filter_congr_forall₂ ?_ ?_ hbinaries)
    · intro a b h
      rw [h.left_eq, h.right_eq]
    · exact fun a b h => h.key_eq

namespace Agrees

private theorem joined_eq (h : t.Agrees t') (c : Chart K) (s : Span) :
    c.joined t s = c.joined t' s := by
  have hcells : ∀ left right : Cell K,
      Chart.joinedIn t c left right = Chart.joinedIn t' c left right := fun left right => by
    simp only [Chart.joinedIn_eq, h.joining_eq]
  simp only [Chart.joined, hcells]

private theorem contents_eq (h : t.Agrees t') (input : List V) (c : Chart K) (s : Span) :
    c.contents t input s = c.contents t' input s := by
  simp only [Chart.contents, h.producing_eq, h.joined_eq]

private theorem addRow_eq (h : t.Agrees t') (input : List V) (c : Chart K) :
    c.addRow t input = c.addRow t' input := by
  simp only [Chart.addRow, Chart.openRow, h.contents_eq]

theorem filled_eq (h : t.Agrees t') (input : List V) (rows : Nat) :
    Chart.filled t input rows = Chart.filled t' input rows := by
  induction rows with
  | zero => rfl
  | succ rows ih => rw [Chart.filled, Chart.filled, ih, h.addRow_eq]

/-- Tables with the same answers fill the same chart. -/
theorem ofInput_eq (h : t.Agrees t') (input : List V) :
    Chart.ofInput t input = Chart.ofInput t' input :=
  h.filled_eq input input.length

end Agrees

end RuleTable

namespace Parser

/-- **Flags play no part in parsing.** Let two grammars be made of rules that agree one by one up to
their flags, and of the same start keys. For every input they give the same answer whether it can be
derived, the same chart, number by number and cell by cell, and the same forests in the same
order. -/
theorem parse_ignores_flags {terminals terminals' : List (TerminalRule K V)}
    {binaries binaries' : List (BinaryRule K)} (starts : List K)
    (hterminals : List.Forall₂ TerminalRule.EqUpToFlag terminals terminals')
    (hbinaries : List.Forall₂ BinaryRule.EqUpToFlag binaries binaries') (input : List V) :
    (ofGrammar (.ofRules terminals binaries starts)).recognize input =
        (ofGrammar (.ofRules terminals' binaries' starts)).recognize input ∧
      (ofGrammar (.ofRules terminals binaries starts)).chart input =
        (ofGrammar (.ofRules terminals' binaries' starts)).chart input ∧
      (ofGrammar (.ofRules terminals binaries starts)).parse input =
        (ofGrammar (.ofRules terminals' binaries' starts)).parse input := by
  have hchart : (ofGrammar (.ofRules terminals binaries starts)).chart input =
      (ofGrammar (.ofRules terminals' binaries' starts)).chart input := by
    simp only [chart, ofGrammar,
      (RuleTable.agrees_ofRules starts hterminals hbinaries).ofInput_eq input]
  -- The start keys are those of both grammars, so a chart has the same roots for both.
  have hroots : (ofGrammar (.ofRules terminals binaries starts)).roots =
      (ofGrammar (.ofRules terminals' binaries' starts)).roots := rfl
  have hforests : (ofGrammar (.ofRules terminals binaries starts)).forests =
      (ofGrammar (.ofRules terminals' binaries' starts)).forests := rfl
  refine ⟨?_, hchart, ?_⟩
  · rw [recognize, recognize, hchart, hroots]
  · rw [parse, parse, hchart, hforests]

/-- A rule that is stated with both flags makes two rules; with the flag of one of them changed, it
makes one. -/
theorem parse_ignores_flags_twins :
    List.Forall₂ TerminalRule.EqUpToFlag [⟨'a', 'a', false⟩] [⟨'a', 'a', true⟩] ∧
      List.Forall₂ BinaryRule.EqUpToFlag [⟨'S', 'a', 'a', false⟩, ⟨'S', 'a', 'a', true⟩]
        [⟨'S', 'a', 'a', false⟩, ⟨'S', 'a', 'a', false⟩] ∧
      distinct [(⟨'S', 'a', 'a', false⟩ : BinaryRule Char), ⟨'S', 'a', 'a', true⟩] ≠
        distinct [⟨'S', 'a', 'a', false⟩, ⟨'S', 'a', 'a', false⟩] ∧
      (ofGrammar (.ofRules [⟨'a', 'a', false⟩]
          [⟨'S', 'a', 'a', false⟩, ⟨'S', 'a', 'a', true⟩] ['S'])).parse ['a', 'a'] =
        (ofGrammar (.ofRules [⟨'a', 'a', true⟩]
          [⟨'S', 'a', 'a', false⟩, ⟨'S', 'a', 'a', false⟩] ['S'])).parse ['a', 'a'] := by
  have hterminals : List.Forall₂ TerminalRule.EqUpToFlag
      [⟨'a', 'a', false⟩] [⟨'a', 'a', true⟩] := .cons ⟨rfl, rfl⟩ .nil
  have hbinaries : List.Forall₂ BinaryRule.EqUpToFlag
      [⟨'S', 'a', 'a', false⟩, ⟨'S', 'a', 'a', true⟩]
      [⟨'S', 'a', 'a', false⟩, ⟨'S', 'a', 'a', false⟩] :=
    .cons ⟨rfl, rfl, rfl⟩ (.cons ⟨rfl, rfl, rfl⟩ .nil)
  exact ⟨hterminals, hbinaries, by decide,
    (parse_ignores_flags ['S'] hterminals hbinaries ['a', 'a']).2.2⟩

end Parser

end ChartParsing
