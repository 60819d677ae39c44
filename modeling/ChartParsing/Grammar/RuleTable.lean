import ChartParsing.Grammar.Basic

/-!
# Rules by their right-hand sides

A bottom-up parser asks which keys have a rule for an input value or for a pair of keys. The table
answers from lists of keys that are entered once per grammar, rule by rule: terminal rules under
their output, binary rules under their left key and there under their right key.

## Main definitions

* `changeAt`: change what comes with one key.
* `RuleTable.addTerminal`, `RuleTable.addBinary`: enter one rule.
* `RuleTable.ofGrammar`: the table of a grammar.
* `RuleTable.producing`: the keys with a rule for a value.
* `RuleTable.joinsFrom?`, `RuleTable.joining`: the keys with a rule for a pair of keys.

## Main results

* `lookup_changeAt_self`, `lookup_changeAt_of_ne`: what comes with a key after a change.
-/

namespace ChartParsing

universe u v

/-! ### Changing what comes with a key -/

section ChangeAt

variable {α : Type u} {β : Type v} [DecidableEq α]

/-- The pairs after a change of what comes with the key `a`. A key that was not there is put behind
the others, with the change of `default`. -/
def changeAt (default : β) (change : β → β) (a : α) : List (α × β) → List (α × β)
  | [] => [(a, change default)]
  | pair :: rest =>
    if pair.1 = a then (a, change pair.2) :: rest else pair :: changeAt default change a rest

variable (default : β) (change : β → β) {a b : α}

theorem lookup_changeAt_self (a : α) (pairs : List (α × β)) :
    (changeAt default change a pairs).lookup a =
      some (change ((pairs.lookup a).getD default)) := by
  induction pairs with
  | nil => simp [changeAt]
  | cons pair rest ih =>
    by_cases h : pair.1 = a
    · subst h
      rw [changeAt, if_pos rfl, List.lookup_cons_self, List.lookup_cons_self]
      rfl
    · have hne : (a == pair.1) = false := by simpa using Ne.symm h
      rw [changeAt, if_neg h, List.lookup_cons, List.lookup_cons, hne, ih]

/-- A change under one key leaves the other keys as they are. -/
theorem lookup_changeAt_of_ne (h : b ≠ a) (pairs : List (α × β)) :
    (changeAt default change a pairs).lookup b = pairs.lookup b := by
  have hne : (b == a) = false := by simpa using h
  induction pairs with
  | nil => simp [changeAt, List.lookup_cons, hne]
  | cons pair rest ih =>
    by_cases hpair : pair.1 = a
    · rw [changeAt, if_pos hpair, List.lookup_cons, List.lookup_cons, hpair, hne]
    · rw [changeAt, if_neg hpair, List.lookup_cons, List.lookup_cons, ih]

end ChangeAt

/-! ### Tables -/

/-- The keys of a grammar's rules, grouped by right-hand side. -/
structure RuleTable (K : Type u) (V : Type v) where
  /-- For each output, the keys of its terminal rules. -/
  byOutput : List (V × List K)
  /-- For each left key and each right key beside it, the keys of the binary rules. -/
  byParts : List (K × List (K × List K))

namespace RuleTable

variable {K : Type u} {V : Type v}

/-- The table without rules. -/
def empty : RuleTable K V := ⟨[], []⟩

variable [DecidableEq K] [DecidableEq V]

/-- Enter a terminal rule: its key joins those of its output, unless it is one of them. -/
def addTerminal (t : RuleTable K V) (rule : TerminalRule K V) : RuleTable K V :=
  { t with byOutput := changeAt [] (pushNew · rule.key) rule.output t.byOutput }

/-- Enter a binary rule: its key joins those of its left and its right key, unless it is one of
them. -/
def addBinary (t : RuleTable K V) (rule : BinaryRule K) : RuleTable K V :=
  { t with
    byParts := changeAt [] (changeAt [] (pushNew · rule.key) rule.right) rule.left t.byParts }

/-- The table of a grammar, its rules entered in order. -/
def ofGrammar (g : Grammar K V) : RuleTable K V :=
  g.binaries.foldl addBinary (g.terminals.foldl addTerminal empty)

/-- The keys with a terminal rule for a value. -/
def producing (t : RuleTable K V) (value : V) : List K :=
  (t.byOutput.lookup value).getD []

/-- The binary rules from a left key, by right key; `none` if there are none. -/
def joinsFrom? (t : RuleTable K V) (left : K) : Option (List (K × List K)) :=
  t.byParts.lookup left

/-- The keys with a binary rule for a pair of keys. -/
def joining (t : RuleTable K V) (left right : K) : List K :=
  match t.joinsFrom? left with
  | some joins => (joins.lookup right).getD []
  | none => []

end RuleTable

end ChartParsing
