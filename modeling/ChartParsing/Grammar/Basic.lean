import ChartParsing.Distinct
import ChartParsing.Text.Literal

/-!
# Grammars in binary form

A grammar has terminal rules, by which a key stands for one input value, binary rules, by which a
key stands for two keys side by side, and start keys. A rule carries a flag: the derivation steps of
a temporary rule are meant to be spliced out of the finished parse. Rules that differ in the flag
alone are different rules.

The start keys of a grammar are kept twice, in their order and as a set, by which a key is found to
be one of them.

## Main definitions

* `TerminalRule`, `BinaryRule`, `Rules`, `Grammar`.
* `Rules.toGrammar`: the grammar of rules and start keys, with the set of the start keys.
* `Grammar.ofRules`: the grammar of given rules and start keys, repeats dropped.
* `Grammar.isStart`, `Grammar.isTemporary?`: what a grammar says of a key.
* `TerminalRule.text`, `BinaryRule.text`: a rule as it is shown.

## Main results

* `Grammar.toRules_inj`: a grammar is known by its rules and start keys.
* `Grammar.isStart_iff`: the set of start keys holds those in the list.
-/

namespace ChartParsing

universe u v

/-- The rule `key → output` for an input value. -/
structure TerminalRule (K : Type u) (V : Type v) where
  /-- The key on the left-hand side. -/
  key : K
  /-- The input value that it stands for. -/
  output : V
  /-- Whether the rule's derivation steps are spliced out of a parse. -/
  temporary : Bool
deriving DecidableEq

/-- The rule `key → left right`. -/
structure BinaryRule (K : Type u) where
  /-- The key on the left-hand side. -/
  key : K
  /-- The key of the left part. -/
  left : K
  /-- The key of the right part. -/
  right : K
  /-- Whether the rule's derivation steps are spliced out of a parse. -/
  temporary : Bool
deriving DecidableEq

/-- Terminal rules, binary rules and start keys, each in a fixed order. -/
@[ext]
structure Rules (K : Type u) (V : Type v) where
  /-- The rules for input values. -/
  terminals : List (TerminalRule K V)
  /-- The rules for pairs of keys. -/
  binaries : List (BinaryRule K)
  /-- The keys that may derive a whole input. -/
  starts : List K
deriving DecidableEq

/-- Rules and start keys, with the set of the start keys. -/
structure Grammar (K : Type u) (V : Type v) extends Rules K V where
  /-- The keys that may derive a whole input, as a set. -/
  startSet : ItemSet K
  /-- The set holds the keys in the list. -/
  contains_startSet : ∀ key, startSet.contains key = true ↔ key ∈ starts

variable {K : Type u} {V : Type v}

/-! ### Rule texts -/

/-- A terminal rule as it is shown: the key plain, the output as a literal. -/
def TerminalRule.text [Plain K] [Literal V] (rule : TerminalRule K V) : String :=
  plain rule.key ++ " -> " ++ literal rule.output

/-- A binary rule as it is shown. -/
def BinaryRule.text [Plain K] (rule : BinaryRule K) : String :=
  plain rule.key ++ " -> " ++ plain rule.left ++ " " ++ plain rule.right

/-! ### Building -/

namespace Rules

variable [DecidableEq K] [DecidableEq V]

/-- No rules and no start keys. -/
def empty : Rules K V := ⟨[], [], []⟩

/-- One more terminal rule, unless it is there. -/
def addTerminal (r : Rules K V) (rule : TerminalRule K V) : Rules K V :=
  { r with terminals := pushNew r.terminals rule }

/-- One more binary rule, unless it is there. -/
def addBinary (r : Rules K V) (rule : BinaryRule K) : Rules K V :=
  { r with binaries := pushNew r.binaries rule }

/-- One more start key, unless it is there. -/
def addStart (r : Rules K V) (key : K) : Rules K V :=
  { r with starts := pushNew r.starts key }

omit [DecidableEq V] in
/-- The grammar with these rules and start keys. -/
def toGrammar (r : Rules K V) : Grammar K V where
  toRules := r
  startSet := .ofList r.starts
  contains_startSet _ := ItemSet.contains_ofList

end Rules

namespace Grammar

/-- A grammar is known by its rules and start keys. -/
theorem toRules_inj {g g' : Grammar K V} : g.toRules = g'.toRules ↔ g = g' := by
  refine ⟨fun h => ?_, congrArg toRules⟩
  have hset : g.startSet = g'.startSet := ItemSet.ext_contains fun key => by
    rw [g.contains_startSet, g'.contains_startSet, h]
  obtain ⟨rules, startSet, _⟩ := g
  cases h
  cases hset
  rfl

variable [DecidableEq K] [DecidableEq V]

instance : DecidableEq (Grammar K V) := fun _ _ => decidable_of_decidable_of_iff toRules_inj

/-- The grammar of the given rules and start keys. Of equal ones the first is kept. -/
def ofRules (terminals : List (TerminalRule K V)) (binaries : List (BinaryRule K))
    (starts : List K) : Grammar K V :=
  Rules.toGrammar ⟨distinct terminals, distinct binaries, distinct starts⟩

section OfRules

variable (terminals : List (TerminalRule K V)) (binaries : List (BinaryRule K)) (starts : List K)

@[simp] theorem terminals_ofRules :
    (ofRules terminals binaries starts).terminals = distinct terminals := rfl

@[simp] theorem binaries_ofRules :
    (ofRules terminals binaries starts).binaries = distinct binaries := rfl

@[simp] theorem starts_ofRules :
    (ofRules terminals binaries starts).starts = distinct starts := rfl

end OfRules

/-! ### Queries -/

omit [DecidableEq K] [DecidableEq V] in
/-- Whether a key may derive a whole input. -/
def isStart (g : Grammar K V) (key : K) : Bool :=
  g.startSet.contains key

omit [DecidableEq K] [DecidableEq V] in
theorem isStart_iff {g : Grammar K V} {key : K} : g.isStart key = true ↔ key ∈ g.starts :=
  g.contains_startSet key

/-- Whether a key is temporary: the flag of its first binary rule, or else of its first terminal
rule; `none` for a key without rules. -/
def isTemporary? (g : Grammar K V) (key : K) : Option Bool :=
  match g.binaries.find? fun rule => rule.key = key with
  | some rule => some rule.temporary
  | none => (g.terminals.find? fun rule => rule.key = key).map TerminalRule.temporary

end Grammar

end ChartParsing
