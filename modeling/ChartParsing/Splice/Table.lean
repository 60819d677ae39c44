import ChartParsing.Grammar.Basic

/-!
# What splicing has to know of a grammar

To splice temporary rules out of a forest, whose labels are keys, each key must be either temporary
or not, whatever rule was used, and each key of a terminal rule must stand for one value. Grammars
where that is not so are refused, with the keys at fault.

## Main definitions

* `Symbol`: the labels of spliced forests.
* `SpliceError`: why forests cannot be spliced.
* `Findings.ofPairs`, `conflicts`: what keys come with first, and the keys that come with two
  different things.
* `SpliceTable`, `SpliceTable.ofGrammar`: flags and outputs by key.
-/

namespace ChartParsing

universe u v

/-- The label of a spliced forest. -/
inductive Symbol (K : Type u) (V : Type v) where
  /-- The key of a rule that is not temporary. -/
  | rule (key : K)
  /-- An input value. -/
  | value (value : V)
deriving DecidableEq

instance {K : Type u} {V : Type v} [Literal K] [Literal V] : Literal (Symbol K V) where
  literal
    | .rule key => "Rule(" ++ literal key ++ ")"
    | .value value => "Value(" ++ literal value ++ ")"

/-! ### Errors -/

/-- Why forests cannot be spliced. -/
inductive SpliceError (K : Type u) where
  /-- Keys with temporary rules and with rules that are not. -/
  | mixedFlags (keys : List K)
  /-- Keys with terminal rules for different values. -/
  | differingOutputs (keys : List K)
  /-- A root has a temporary key, so there is nothing to splice it into. -/
  | temporaryRoot (key : K)
  /-- A key has no rules. -/
  | undefinedKey (key : K)
  /-- The key of a leaf has no terminal rule. -/
  | valuelessLeaf (key : K)
deriving DecidableEq

/-- The error in words. -/
def SpliceError.message {K : Type u} [Literal K] (e : SpliceError K) : String :=
  "Unflattenable Forest: " ++
    match e with
    | .mixedFlags keys =>
      "rule keys with both temporary and non-temporary rules: " ++ literal keys
    | .differingOutputs keys => "terminal rule keys producing differing outputs: " ++ literal keys
    | .temporaryRoot key => "root rule " ++ literal key ++ " is temporary"
    | .undefinedKey key => "rule key " ++ literal key ++ " not in grammar"
    | .valuelessLeaf key => "leaf " ++ literal key ++ " has no terminal rule"

/-! ### Findings -/

/-- What is found of the things that keys come with, in one pass over the pairs. -/
structure Findings (K : Type u) (T : Type v) where
  /-- What each key has come with first. -/
  first : List (K × T)
  /-- The keys that have come with something different later, in the order in which that was
  noticed. -/
  conflicts : List K

namespace Findings

variable {K : Type u} {T : Type v} [DecidableEq K] [DecidableEq T]

/-- Take note of one more pair, which is compared with the first one of its key. -/
def note (f : Findings K T) (pair : K × T) : Findings K T :=
  match f.first.lookup pair.1 with
  | some item => if item = pair.2 then f else { f with conflicts := pushNew f.conflicts pair.1 }
  | none => { f with first := f.first ++ [pair] }

/-- The findings in a list of pairs. -/
def ofPairs (pairs : List (K × T)) : Findings K T :=
  pairs.foldl note ⟨[], []⟩

end Findings

/-- The keys that come with something different from what they come with first, in the order in
which that is noticed. -/
def conflicts {K : Type u} {T : Type v} [DecidableEq K] [DecidableEq T] (pairs : List (K × T)) :
    List K :=
  (Findings.ofPairs pairs).conflicts

/-! ### Tables -/

/-- The flags of the keys with rules, and the outputs of the keys with terminal rules. -/
structure SpliceTable (K : Type u) (V : Type v) where
  /-- Whether a key is temporary, for each key with a rule. -/
  flags : List (K × Bool)
  /-- The output of each key with a terminal rule. -/
  outputs : List (K × V)

namespace SpliceTable

variable {K : Type u} {V : Type v}

/-- The flags of all rules, the binary ones first. -/
def ruleFlags (g : Grammar K V) : List (K × Bool) :=
  g.binaries.map (fun rule => (rule.key, rule.temporary))
    ++ g.terminals.map fun rule => (rule.key, rule.temporary)

/-- The outputs of all terminal rules. -/
def ruleOutputs (g : Grammar K V) : List (K × V) :=
  g.terminals.map fun rule => (rule.key, rule.output)

variable [DecidableEq K] [DecidableEq V]

/-- The table of a grammar. Differing flags are reported before differing outputs. -/
def ofGrammar (g : Grammar K V) : Except (SpliceError K) (SpliceTable K V) :=
  let mixed := conflicts (ruleFlags g)
  let differing := conflicts (ruleOutputs g)
  if !mixed.isEmpty then .error (.mixedFlags mixed)
  else if !differing.isEmpty then .error (.differingOutputs differing)
  else .ok ⟨(Findings.ofPairs (ruleFlags g)).first, (Findings.ofPairs (ruleOutputs g)).first⟩

/-- Whether a key is temporary; `none` for a key without rules. -/
def flag? (t : SpliceTable K V) (key : K) : Option Bool := t.flags.lookup key

/-- The value that a leaf with the given key stands for. -/
def output? (t : SpliceTable K V) (key : K) : Option V := t.outputs.lookup key

end SpliceTable

end ChartParsing
