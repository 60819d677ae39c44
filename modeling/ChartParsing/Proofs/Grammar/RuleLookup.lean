import ChartParsing.Grammar.RuleTable

/-!
# What a rule table answers

The rules of a grammar are entered into its table one by one, each under its right-hand side, and a
key is entered there once. So the answers are those of a scan of the rules: the keys of the rules
with a given right-hand side, each once, in the order of the first such rule.

## Main results

* `RuleTable.producing_addTerminal`, `RuleTable.joining_addBinary`,
  `RuleTable.joinsFrom?_addBinary_eq_none_iff`: what one more rule changes.
* `RuleTable.producing_ofGrammar`, `RuleTable.joining_ofGrammar`: the answers as scans.
* `RuleTable.joinsFrom?_ofGrammar_eq_none_iff`: there is nothing to join exactly when no rule has
  the left key.
* `RuleTable.mem_producing`, `RuleTable.mem_joining`: which keys are answered.
-/

namespace ChartParsing

universe u v

theorem mem_of_lookup_eq_some {α : Type u} {β : Type v} [DecidableEq α] {pairs : List (α × β)}
    {a : α} {b : β} (h : pairs.lookup a = some b) : (a, b) ∈ pairs := by
  obtain ⟨front, back, rfl, -⟩ := List.lookup_eq_some_iff.1 h
  exact List.mem_append_right front List.mem_cons_self

namespace RuleTable

variable {K : Type u} {V : Type v} [DecidableEq K]

/-! ### Entering binary rules -/

private theorem joinsFrom?_addBinary_self (t : RuleTable K V) (rule : BinaryRule K) :
    (t.addBinary rule).joinsFrom? rule.left =
      some (changeAt [] (pushNew · rule.key) rule.right ((t.joinsFrom? rule.left).getD [])) :=
  lookup_changeAt_self _ _ _ _

private theorem joinsFrom?_addBinary_of_ne (t : RuleTable K V) {rule : BinaryRule K} {left : K}
    (h : rule.left ≠ left) : (t.addBinary rule).joinsFrom? left = t.joinsFrom? left :=
  lookup_changeAt_of_ne _ _ (Ne.symm h) _

theorem joinsFrom?_addBinary_eq_none_iff (t : RuleTable K V) (rule : BinaryRule K) (left : K) :
    (t.addBinary rule).joinsFrom? left = none ↔ rule.left ≠ left ∧ t.joinsFrom? left = none := by
  by_cases h : rule.left = left
  · simp [← h, joinsFrom?_addBinary_self]
  · rw [joinsFrom?_addBinary_of_ne t h, and_iff_right h]

private theorem joining_eq_getD (t : RuleTable K V) (left right : K) :
    t.joining left right = (((t.joinsFrom? left).getD []).lookup right).getD [] := by
  rw [joining]
  cases t.joinsFrom? left <;> rfl

/-- A binary rule adds its key to those that join its left and right keys, and changes no other
answer. -/
theorem joining_addBinary (t : RuleTable K V) (rule : BinaryRule K) (left right : K) :
    (t.addBinary rule).joining left right =
      if rule.left = left ∧ rule.right = right then pushNew (t.joining left right) rule.key
      else t.joining left right := by
  rw [joining_eq_getD, joining_eq_getD]
  by_cases hleft : rule.left = left
  · subst hleft
    rw [joinsFrom?_addBinary_self, Option.getD_some]
    by_cases hright : rule.right = right
    · rw [if_pos ⟨rfl, hright⟩, hright, lookup_changeAt_self]
      rfl
    · rw [if_neg fun h => hright h.2, lookup_changeAt_of_ne _ _ (Ne.symm hright)]
  · rw [if_neg fun h => hleft h.1, joinsFrom?_addBinary_of_ne t hleft]

private theorem joining_foldl_addBinary (t : RuleTable K V) (rules : List (BinaryRule K))
    (left right : K) :
    (rules.foldl addBinary t).joining left right =
      ((rules.filter fun rule => rule.left = left ∧ rule.right = right).map
        BinaryRule.key).foldl pushNew (t.joining left right) := by
  induction rules generalizing t with
  | nil => rfl
  | cons rule rules ih =>
    rw [List.foldl_cons, ih, joining_addBinary]
    by_cases h : rule.left = left ∧ rule.right = right <;> simp [h]

theorem joinsFrom?_foldl_addBinary_eq_none_iff (t : RuleTable K V) (rules : List (BinaryRule K))
    (left : K) :
    (rules.foldl addBinary t).joinsFrom? left = none ↔
      (∀ rule ∈ rules, rule.left ≠ left) ∧ t.joinsFrom? left = none := by
  induction rules generalizing t with
  | nil => simp
  | cons rule rules ih =>
    rw [List.foldl_cons, ih, joinsFrom?_addBinary_eq_none_iff, List.forall_mem_cons,
      and_left_comm, and_assoc]

private theorem byOutput_foldl_addBinary (t : RuleTable K V) (rules : List (BinaryRule K)) :
    (rules.foldl addBinary t).byOutput = t.byOutput := by
  induction rules generalizing t with
  | nil => rfl
  | cons rule rules ih => exact ih _

/-! ### Entering terminal rules -/

variable [DecidableEq V]

private theorem byParts_foldl_addTerminal (t : RuleTable K V) (rules : List (TerminalRule K V)) :
    (rules.foldl addTerminal t).byParts = t.byParts := by
  induction rules generalizing t with
  | nil => rfl
  | cons rule rules ih => exact ih _

/-- A terminal rule adds its key to those that produce its output, and changes no other answer. -/
theorem producing_addTerminal (t : RuleTable K V) (rule : TerminalRule K V) (value : V) :
    (t.addTerminal rule).producing value =
      if rule.output = value then pushNew (t.producing value) rule.key else t.producing value := by
  by_cases h : rule.output = value
  · rw [if_pos h, producing, addTerminal, h, lookup_changeAt_self]
    rfl
  · rw [if_neg h, producing, addTerminal, lookup_changeAt_of_ne _ _ (Ne.symm h)]
    rfl

private theorem producing_foldl_addTerminal (t : RuleTable K V) (rules : List (TerminalRule K V))
    (value : V) :
    (rules.foldl addTerminal t).producing value =
      ((rules.filter fun rule => rule.output = value).map TerminalRule.key).foldl pushNew
        (t.producing value) := by
  induction rules generalizing t with
  | nil => rfl
  | cons rule rules ih =>
    rw [List.foldl_cons, ih, producing_addTerminal]
    by_cases h : rule.output = value <;> simp [h]

/-! ### Answers as scans -/

/-- The keys that produce a value are the keys of its terminal rules. -/
theorem producing_ofGrammar (g : Grammar K V) (value : V) :
    (ofGrammar g).producing value =
      distinct ((g.terminals.filter fun rule => rule.output = value).map TerminalRule.key) := by
  rw [distinct_eq_foldl_pushNew, producing, ofGrammar, byOutput_foldl_addBinary]
  exact producing_foldl_addTerminal empty g.terminals value

private theorem joinsFrom?_foldl_addTerminal_empty (rules : List (TerminalRule K V)) (left : K) :
    (rules.foldl addTerminal empty).joinsFrom? left = none := by
  rw [joinsFrom?, byParts_foldl_addTerminal]
  rfl

/-- Nothing can be joined to a key exactly when no rule has it on the left. -/
theorem joinsFrom?_ofGrammar_eq_none_iff (g : Grammar K V) (left : K) :
    (ofGrammar g).joinsFrom? left = none ↔ ∀ rule ∈ g.binaries, rule.left ≠ left := by
  rw [ofGrammar, joinsFrom?_foldl_addBinary_eq_none_iff,
    and_iff_left (joinsFrom?_foldl_addTerminal_empty g.terminals left)]

/-- The keys that join two keys are the keys of the binary rules for them. -/
theorem joining_ofGrammar (g : Grammar K V) (left right : K) :
    (ofGrammar g).joining left right =
      distinct ((g.binaries.filter fun rule => rule.left = left ∧ rule.right = right).map
        BinaryRule.key) := by
  have hnone : (g.terminals.foldl addTerminal empty).joining left right = [] := by
    rw [joining, joinsFrom?_foldl_addTerminal_empty]
  rw [ofGrammar, joining_foldl_addBinary, hnone, distinct_eq_foldl_pushNew]

/-! ### Membership -/

theorem mem_producing {g : Grammar K V} {value : V} {key : K} :
    key ∈ (ofGrammar g).producing value ↔
      ∃ rule ∈ g.terminals, rule.output = value ∧ rule.key = key := by
  simp [producing_ofGrammar, and_assoc]

theorem mem_joining {g : Grammar K V} {left right key : K} :
    key ∈ (ofGrammar g).joining left right ↔
      ∃ rule ∈ g.binaries, rule.left = left ∧ rule.right = right ∧ rule.key = key := by
  simp [joining_ofGrammar, and_assoc]

theorem nodup_producing (g : Grammar K V) (value : V) :
    ((ofGrammar g).producing value).Nodup :=
  producing_ofGrammar g value ▸ nodup_distinct _

theorem nodup_joining (g : Grammar K V) (left right : K) :
    ((ofGrammar g).joining left right).Nodup :=
  joining_ofGrammar g left right ▸ nodup_distinct _

end RuleTable

end ChartParsing
