import ChartParsing.Grammar.Draft
import ChartParsing.Proofs.Distinct

/-!
# What a draft comes to

A draft keeps the first occurrences of what its steps add, whether they add it quietly or not: a
step that adds something again changes nothing but, if it is not quiet, the mistake. So what a
sequence of steps comes to can be said of the sequence alone. The first step that states a rule
again, and not quietly, is the mistake; without one there must be a start key; and then there is a
grammar.

The inductions are on the sequence from its end, since a draft makes one addition after another.

## Main definitions

* `Draft.Step.Repeats`, `Draft.Step.Violates`: a step adds something again; it states a rule again,
  and not quietly.
* `Draft.Clean`, `Draft.FirstViolation`: sequences without a violation, and the first violation in a
  sequence.

## Main results

* `Draft.rules_ofSteps`: what a draft holds.
* `Draft.mistake?_ofSteps_eq_some_iff`: the mistake is the first violation.
* `Draft.finish_decides`: what the finished draft is.
-/

namespace ChartParsing

universe u v

variable {K : Type u} {V : Type v}

namespace Draft

/-! ### Steps -/

namespace Step

/-- The terminal rule that a step adds. -/
def terminal? : Step K V → Option (TerminalRule K V)
  | .terminal rule _ => some rule
  | _ => none

/-- The binary rule that a step adds. -/
def binary? : Step K V → Option (BinaryRule K)
  | .binary rule _ => some rule
  | _ => none

/-- The start key that a step adds. -/
def start? : Step K V → Option K
  | .start key => some key
  | _ => none

/-- What a step adds, in words that do not show the flag of a rule. -/
def text [Literal K] [Literal V] : Step K V → String
  | .terminal rule _ => literal rule.key ++ " -> " ++ literal rule.output
  | .binary rule _ => literal rule.key ++ " -> " ++ literal rule.left ++ " " ++ literal rule.right
  | .start key => literal key

/-- A step adds something that an earlier one has added, quietly or not. -/
inductive Repeats (earlier : List (Step K V)) : Step K V → Prop where
  /-- A terminal rule with the same flag. -/
  | terminal {rule : TerminalRule K V} {quiet quiet' : Bool}
      (mem : .terminal rule quiet ∈ earlier) : Repeats earlier (.terminal rule quiet')
  /-- A binary rule with the same flag. -/
  | binary {rule : BinaryRule K} {quiet quiet' : Bool}
      (mem : .binary rule quiet ∈ earlier) : Repeats earlier (.binary rule quiet')
  /-- A start key. -/
  | start {key : K} (mem : .start key ∈ earlier) : Repeats earlier (.start key)

/-- A step states a rule that an earlier one has added, and is not quiet about it. -/
inductive Violates (earlier : List (Step K V)) : Step K V → GrammarError K V → Prop where
  /-- A terminal rule with the same flag. -/
  | terminal {rule : TerminalRule K V} {quiet : Bool} (mem : .terminal rule quiet ∈ earlier) :
      Violates earlier (.terminal rule false) (.duplicateTerminal rule)
  /-- A binary rule with the same flag. -/
  | binary {rule : BinaryRule K} {quiet : Bool} (mem : .binary rule quiet ∈ earlier) :
      Violates earlier (.binary rule false) (.duplicateBinary rule)

variable {earlier : List (Step K V)} {step : Step K V} {e : GrammarError K V}

theorem Violates.message_eq [Literal K] [Literal V] (h : step.Violates earlier e) :
    e.message = "Duplicate Rule: " ++ step.text := by
  unfold GrammarError.message text
  cases h <;> simp only [String.append_assoc]

theorem Violates.ne_missingStart (h : step.Violates earlier e) : e ≠ .missingStart := by
  cases h <;> nofun

private theorem terminal?_eq_some_iff {rule : TerminalRule K V} :
    step.terminal? = some rule ↔ ∃ quiet, step = .terminal rule quiet := by
  cases step <;> simp [terminal?]

private theorem binary?_eq_some_iff {rule : BinaryRule K} :
    step.binary? = some rule ↔ ∃ quiet, step = .binary rule quiet := by
  cases step <;> simp [binary?]

private theorem start?_eq_some_iff {key : K} : step.start? = some key ↔ step = .start key := by
  cases step <;> simp [start?]

private theorem mem_filterMap_terminal? {steps : List (Step K V)} {rule : TerminalRule K V} :
    rule ∈ steps.filterMap terminal? ↔ ∃ quiet, .terminal rule quiet ∈ steps := by
  simp only [List.mem_filterMap, terminal?_eq_some_iff]
  exact ⟨fun ⟨_, hstep, quiet, heq⟩ => ⟨quiet, heq ▸ hstep⟩,
    fun ⟨quiet, hstep⟩ => ⟨_, hstep, quiet, rfl⟩⟩

private theorem mem_filterMap_binary? {steps : List (Step K V)} {rule : BinaryRule K} :
    rule ∈ steps.filterMap binary? ↔ ∃ quiet, .binary rule quiet ∈ steps := by
  simp only [List.mem_filterMap, binary?_eq_some_iff]
  exact ⟨fun ⟨_, hstep, quiet, heq⟩ => ⟨quiet, heq ▸ hstep⟩,
    fun ⟨quiet, hstep⟩ => ⟨_, hstep, quiet, rfl⟩⟩

theorem mem_filterMap_start? {steps : List (Step K V)} {key : K} :
    key ∈ steps.filterMap start? ↔ .start key ∈ steps := by
  simp only [List.mem_filterMap, start?_eq_some_iff, exists_eq_right]

end Step

/-! ### Violations in a sequence -/

/-- No step violates what the steps before it have added. -/
def Clean (steps : List (Step K V)) : Prop :=
  ∀ front step back e, steps = front ++ step :: back → ¬step.Violates front e

/-- A step is the first one that violates what the steps before it have added. -/
def FirstViolation (steps : List (Step K V)) (step : Step K V) (e : GrammarError K V) : Prop :=
  ∃ front back, steps = front ++ step :: back ∧ Clean front ∧ step.Violates front e

section Violations

variable {steps : List (Step K V)} {step : Step K V} {e : GrammarError K V}

private theorem clean_nil : Clean ([] : List (Step K V)) :=
  fun _ _ _ _ h => absurd h.symm (by simp)

/-- A step that stands in a sequence with one more step is the last one, or it stands before it. -/
private theorem concat_eq_append_cons_iff {last : Step K V} {front back : List (Step K V)} :
    steps ++ [last] = front ++ step :: back ↔
      (steps = front ∧ last = step ∧ back = []) ∨
        ∃ middle, back = middle ++ [last] ∧ steps = front ++ step :: middle := by
  constructor
  · intro h
    rcases List.eq_nil_or_concat back with rfl | ⟨middle, other, rfl⟩
    · obtain ⟨hfront, hlast⟩ := List.append_inj' h rfl
      exact .inl ⟨hfront, List.singleton_inj.1 hlast, rfl⟩
    · rw [List.concat_eq_append, ← List.cons_append, ← List.append_assoc] at h
      obtain ⟨hfront, hlast⟩ := List.append_inj' h rfl
      cases hlast
      exact .inr ⟨middle, List.concat_eq_append, hfront⟩
  · rintro (⟨rfl, rfl, rfl⟩ | ⟨middle, rfl, rfl⟩)
    · rfl
    · rw [List.append_assoc, List.cons_append]

theorem clean_concat_iff :
    Clean (steps ++ [step]) ↔ Clean steps ∧ ∀ e, ¬step.Violates steps e := by
  constructor
  · refine fun h => ⟨fun front other back e heq => ?_, fun e => h steps step [] e rfl⟩
    exact h front other _ e (concat_eq_append_cons_iff.2 (.inr ⟨back, rfl, heq⟩))
  · rintro ⟨hclean, hlast⟩ front other back e heq
    rcases concat_eq_append_cons_iff.1 heq with ⟨rfl, rfl, -⟩ | ⟨middle, -, hmiddle⟩
    · exact hlast e
    · exact hclean front other middle e hmiddle

/-- The first violation is among the first steps, or it is the last step of a sequence that was
clean before. -/
theorem exists_firstViolation_concat_iff :
    (∃ other, FirstViolation (steps ++ [step]) other e) ↔
      (∃ other, FirstViolation steps other e) ∨ Clean steps ∧ step.Violates steps e := by
  constructor
  · rintro ⟨other, front, back, heq, hclean, hviolates⟩
    rcases concat_eq_append_cons_iff.1 heq with ⟨rfl, rfl, -⟩ | ⟨middle, -, hmiddle⟩
    · exact .inr ⟨hclean, hviolates⟩
    · exact .inl ⟨other, front, middle, hmiddle, hclean, hviolates⟩
  · rintro (⟨other, front, middle, heq, hclean, hviolates⟩ | ⟨hclean, hviolates⟩)
    · exact ⟨other, front, _, concat_eq_append_cons_iff.2 (.inr ⟨middle, rfl, heq⟩), hclean,
        hviolates⟩
    · exact ⟨step, steps, [], rfl, hclean, hviolates⟩

theorem FirstViolation.append (h : FirstViolation steps step e) (more : List (Step K V)) :
    FirstViolation (steps ++ more) step e := by
  obtain ⟨front, back, rfl, hclean, hviolates⟩ := h
  exact ⟨front, back ++ more, by simp, hclean, hviolates⟩

theorem FirstViolation.ne_missingStart (h : FirstViolation steps step e) : e ≠ .missingStart := by
  obtain ⟨_, _, -, -, hviolates⟩ := h
  exact hviolates.ne_missingStart

theorem FirstViolation.message_eq [Literal K] [Literal V] (h : FirstViolation steps step e) :
    e.message = "Duplicate Rule: " ++ step.text := by
  obtain ⟨_, _, -, -, hviolates⟩ := h
  exact hviolates.message_eq

end Violations

variable [DecidableEq K] [DecidableEq V]

/-! ### The draft after a sequence of steps -/

theorem ofSteps_concat (steps : List (Step K V)) (step : Step K V) :
    ofSteps (steps ++ [step]) = (ofSteps steps).add step := by
  rw [ofSteps, List.foldl_append]
  rfl

/-- A draft holds the first occurrences of what its steps add. -/
theorem rules_ofSteps (steps : List (Step K V)) :
    (ofSteps steps).rules = ⟨distinct (steps.filterMap Step.terminal?),
      distinct (steps.filterMap Step.binary?), distinct (steps.filterMap Step.start?)⟩ := by
  induction steps using List.reverseRecOn with
  | nil => rfl
  | append_singleton steps step ih =>
    rw [ofSteps_concat, add, ih, List.filterMap_append, List.filterMap_append,
      List.filterMap_append]
    cases step with
    | terminal rule quiet =>
      simp [Step.extend, Rules.addTerminal, distinct_concat, List.filterMap_cons,
        Step.terminal?, Step.binary?, Step.start?]
    | binary rule quiet =>
      simp [Step.extend, Rules.addBinary, distinct_concat, List.filterMap_cons,
        Step.terminal?, Step.binary?, Step.start?]
    | start key =>
      simp [Step.extend, Rules.addStart, distinct_concat, List.filterMap_cons,
        Step.terminal?, Step.binary?, Step.start?]

section Rules

variable {steps : List (Step K V)} {step : Step K V} {e : GrammarError K V}

theorem mem_terminals_ofSteps {rule : TerminalRule K V} :
    rule ∈ (ofSteps steps).rules.terminals ↔ ∃ quiet, .terminal rule quiet ∈ steps := by
  rw [rules_ofSteps]
  exact mem_distinct.trans Step.mem_filterMap_terminal?

theorem mem_binaries_ofSteps {rule : BinaryRule K} :
    rule ∈ (ofSteps steps).rules.binaries ↔ ∃ quiet, .binary rule quiet ∈ steps := by
  rw [rules_ofSteps]
  exact mem_distinct.trans Step.mem_filterMap_binary?

theorem mem_starts_ofSteps {key : K} :
    key ∈ (ofSteps steps).rules.starts ↔ .start key ∈ steps := by
  rw [rules_ofSteps]
  exact mem_distinct.trans Step.mem_filterMap_start?

theorem extend_eq_of_repeats (h : step.Repeats steps) :
    step.extend (ofSteps steps).rules = (ofSteps steps).rules := by
  cases h with
  | terminal mem =>
    rw [Step.extend, Rules.addTerminal, pushNew_of_mem (mem_terminals_ofSteps.2 ⟨_, mem⟩)]
  | binary mem =>
    rw [Step.extend, Rules.addBinary, pushNew_of_mem (mem_binaries_ofSteps.2 ⟨_, mem⟩)]
  | start mem => rw [Step.extend, Rules.addStart, pushNew_of_mem (mem_starts_ofSteps.2 mem)]

/-- A step is a mistake after a sequence of steps if it violates what they have added. -/
theorem mistakeAfter?_eq_some_iff :
    step.mistakeAfter? (ofSteps steps).rules = some e ↔ step.Violates steps e := by
  constructor
  · intro h
    cases step with
    | terminal rule quiet =>
      rw [Step.mistakeAfter?, Option.ite_none_right_eq_some] at h
      obtain ⟨hloud, heq⟩ := h
      simp only [Bool.and_eq_true, Bool.not_eq_true', decide_eq_true_eq] at hloud
      obtain ⟨rfl, hmem⟩ := hloud
      cases heq
      obtain ⟨_, hstep⟩ := mem_terminals_ofSteps.1 hmem
      exact .terminal hstep
    | binary rule quiet =>
      rw [Step.mistakeAfter?, Option.ite_none_right_eq_some] at h
      obtain ⟨hloud, heq⟩ := h
      simp only [Bool.and_eq_true, Bool.not_eq_true', decide_eq_true_eq] at hloud
      obtain ⟨rfl, hmem⟩ := hloud
      cases heq
      obtain ⟨_, hstep⟩ := mem_binaries_ofSteps.1 hmem
      exact .binary hstep
    | start key => cases h
  · intro h
    cases h with
    | terminal mem => simp [Step.mistakeAfter?, mem_terminals_ofSteps.2 ⟨_, mem⟩]
    | binary mem => simp [Step.mistakeAfter?, mem_binaries_ofSteps.2 ⟨_, mem⟩]

theorem mistake?_ofSteps_eq_none_iff : (ofSteps steps).mistake? = none ↔ Clean steps := by
  induction steps using List.reverseRecOn with
  | nil => exact iff_of_true rfl clean_nil
  | append_singleton steps last ih =>
    rw [ofSteps_concat, add, Option.or_eq_none_iff, ih, clean_concat_iff,
      Option.eq_none_iff_forall_ne_some]
    simp only [ne_eq, mistakeAfter?_eq_some_iff]

/-- The mistake in a draft is the first violation. -/
theorem mistake?_ofSteps_eq_some_iff :
    (ofSteps steps).mistake? = some e ↔ ∃ step, FirstViolation steps step e := by
  induction steps using List.reverseRecOn with
  | nil =>
    refine ⟨nofun, ?_⟩
    rintro ⟨step, front, back, heq, -⟩
    simp at heq
  | append_singleton steps last ih =>
    rw [ofSteps_concat, add, Option.or_eq_some_iff, ih, mistakeAfter?_eq_some_iff,
      mistake?_ofSteps_eq_none_iff, exists_firstViolation_concat_iff]

end Rules

/-! ### Finishing -/

end Draft

/-- A grammar is the grammar of its own rules and start keys. -/
theorem Grammar.ofRules_ofRules [DecidableEq K] [DecidableEq V]
    (terminals : List (TerminalRule K V)) (binaries : List (BinaryRule K)) (starts : List K) :
    ofRules (ofRules terminals binaries starts).terminals
      (ofRules terminals binaries starts).binaries (ofRules terminals binaries starts).starts =
        ofRules terminals binaries starts := by
  simp only [ofRules, Rules.toGrammar, distinct_of_nodup (nodup_distinct _)]

theorem Grammar.eq_ofRules_iff [DecidableEq K] [DecidableEq V] {g : Grammar K V}
    {terminals : List (TerminalRule K V)} {binaries : List (BinaryRule K)} {starts : List K} :
    g = .ofRules terminals binaries starts ↔ FirstOccurrences terminals g.terminals ∧
      FirstOccurrences binaries g.binaries ∧ FirstOccurrences starts g.starts := by
  rw [← toRules_inj]
  simp only [Rules.ext_iff, terminals_ofRules, binaries_ofRules, starts_ofRules,
    firstOccurrences_iff]

namespace Draft

variable [DecidableEq K] [DecidableEq V] {steps : List (Step K V)} {step : Step K V}
  {e : GrammarError K V}

theorem clean_or_exists_firstViolation (steps : List (Step K V)) :
    Clean steps ∨ ∃ step e, FirstViolation steps step e := by
  cases hmistake : (ofSteps steps).mistake? with
  | none => exact .inl (mistake?_ofSteps_eq_none_iff.1 hmistake)
  | some e =>
    obtain ⟨step, hstep⟩ := mistake?_ofSteps_eq_some_iff.1 hmistake
    exact .inr ⟨step, e, hstep⟩

/-- The first violation is reported, also without a start key. -/
theorem FirstViolation.finish_eq (h : FirstViolation steps step e) :
    (ofSteps steps).finish = .error e := by
  rw [finish, mistake?_ofSteps_eq_some_iff.2 ⟨step, h⟩]

theorem Clean.finish_eq_missingStart (h : Clean steps) (hstart : ∀ key, .start key ∉ steps) :
    (ofSteps steps).finish = .error .missingStart := by
  have hempty : (ofSteps steps).rules.starts = [] :=
    List.eq_nil_iff_forall_not_mem.2 fun key hkey => hstart key (mem_starts_ofSteps.1 hkey)
  rw [finish, mistake?_ofSteps_eq_none_iff.2 h, hempty]
  rfl

theorem Clean.finish_eq_ok (h : Clean steps) (hstart : ∃ key, .start key ∈ steps) :
    (ofSteps steps).finish = .ok (.ofRules (steps.filterMap Step.terminal?)
      (steps.filterMap Step.binary?) (steps.filterMap Step.start?)) := by
  obtain ⟨key, hkey⟩ := hstart
  have hne : ¬(ofSteps steps).rules.starts.isEmpty :=
    mt List.isEmpty_iff.1 (List.ne_nil_of_mem (mem_starts_ofSteps.2 hkey))
  rw [finish, mistake?_ofSteps_eq_none_iff.2 h]
  refine (if_neg hne).trans (congrArg Except.ok ?_)
  rw [rules_ofSteps]
  exact Grammar.ofRules_ofRules _ _ _

/-- A finished draft is one of these: the first violation, the missing start key, the grammar. -/
theorem finish_cases (steps : List (Step K V)) :
    (∃ step e, FirstViolation steps step e ∧ (ofSteps steps).finish = .error e) ∨
      (Clean steps ∧ (∀ key, .start key ∉ steps) ∧
        (ofSteps steps).finish = .error .missingStart) ∨
      Clean steps ∧ (∃ key, .start key ∈ steps) ∧
        (ofSteps steps).finish = .ok (.ofRules (steps.filterMap Step.terminal?)
      (steps.filterMap Step.binary?) (steps.filterMap Step.start?)) := by
  rcases clean_or_exists_firstViolation steps with hclean | ⟨step, e, h⟩
  · by_cases hstart : ∃ key, .start key ∈ steps
    · exact .inr (.inr ⟨hclean, hstart, hclean.finish_eq_ok hstart⟩)
    · rw [not_exists] at hstart
      exact .inr (.inl ⟨hclean, hstart, hclean.finish_eq_missingStart hstart⟩)
  · exact .inl ⟨step, e, h, h.finish_eq⟩

theorem finish_eq_error_iff :
    ((ofSteps steps).finish = .error e ∧ e ≠ .missingStart) ↔
      ∃ step, FirstViolation steps step e := by
  constructor
  · rintro ⟨hfinish, hne⟩
    rcases finish_cases steps with ⟨step, e', h, heq⟩ | ⟨-, -, heq⟩ | ⟨-, -, heq⟩
    · cases hfinish.symm.trans heq
      exact ⟨step, h⟩
    · cases hfinish.symm.trans heq
      exact absurd rfl hne
    · cases hfinish.symm.trans heq
  · rintro ⟨step, h⟩
    exact ⟨h.finish_eq, h.ne_missingStart⟩

theorem finish_eq_missingStart_iff :
    (ofSteps steps).finish = .error .missingStart ↔ Clean steps ∧ ∀ key, .start key ∉ steps := by
  constructor
  · intro hfinish
    rcases finish_cases steps with ⟨step, e, h, heq⟩ | ⟨hclean, hstart, -⟩ | ⟨-, -, heq⟩
    · cases hfinish.symm.trans heq
      exact absurd rfl h.ne_missingStart
    · exact ⟨hclean, hstart⟩
    · cases hfinish.symm.trans heq
  · rintro ⟨hclean, hstart⟩
    exact hclean.finish_eq_missingStart hstart

theorem finish_eq_ok_iff {g : Grammar K V} :
    (ofSteps steps).finish = .ok g ↔
      Clean steps ∧ (∃ key, .start key ∈ steps) ∧ g = .ofRules (steps.filterMap Step.terminal?)
        (steps.filterMap Step.binary?) (steps.filterMap Step.start?) := by
  constructor
  · intro hfinish
    rcases finish_cases steps with ⟨step, e, -, heq⟩ | ⟨-, -, heq⟩ | ⟨hclean, hstart, heq⟩
    · cases hfinish.symm.trans heq
    · cases hfinish.symm.trans heq
    · exact ⟨hclean, hstart, Except.ok.inj (hfinish.symm.trans heq)⟩
  · rintro ⟨hclean, hstart, rfl⟩
    exact hclean.finish_eq_ok hstart

/-- **What a draft comes to.** If there is a violation, the draft reports the first one, whatever
steps follow and even without a start key, in the words for the rule. Otherwise it reports a missing
start key if there is none, and else it gives the grammar of what the steps have added, each once,
in the order of first occurrences. A violation that is reported stays the one that is reported, and
a step that adds something again never changes what the draft holds. -/
theorem finish_decides [Literal K] [Literal V] (steps : List (Step K V)) :
    (∀ e, ((ofSteps steps).finish = .error e ∧ e ≠ .missingStart) ↔
      ∃ step, FirstViolation steps step e) ∧
    (∀ step e, FirstViolation steps step e → e.message = "Duplicate Rule: " ++ step.text) ∧
    ((ofSteps steps).finish = .error .missingStart ↔
      Clean steps ∧ ∀ key, .start key ∉ steps) ∧
    (∀ g, (ofSteps steps).finish = .ok g ↔ Clean steps ∧ (∃ key, .start key ∈ steps) ∧
      FirstOccurrences (steps.filterMap Step.terminal?) g.terminals ∧
      FirstOccurrences (steps.filterMap Step.binary?) g.binaries ∧
      FirstOccurrences (steps.filterMap Step.start?) g.starts) ∧
    (∀ e, (ofSteps steps).finish = .error e → e ≠ .missingStart →
      ∀ more, (ofSteps (steps ++ more)).finish = .error e) ∧
    ∀ step, step.Repeats steps → (ofSteps (steps ++ [step])).rules = (ofSteps steps).rules := by
  refine ⟨fun e => finish_eq_error_iff, fun step e h => h.message_eq, finish_eq_missingStart_iff,
    fun g => by rw [finish_eq_ok_iff, Grammar.eq_ofRules_iff], fun e hfinish hne more => ?_,
    fun step h => ?_⟩
  · obtain ⟨step, h⟩ := finish_eq_error_iff.1 ⟨hfinish, hne⟩
    exact (h.append more).finish_eq
  · rw [ofSteps_concat]
    exact extend_eq_of_repeats h

/-- A rule is added quietly, with the other flag, and then once more. -/
def restated : List (Step Char Char) :=
  [.terminal ⟨'A', 'a', false⟩ true, .terminal ⟨'A', 'a', true⟩ false,
    .binary ⟨'S', 'A', 'A', false⟩ false, .binary ⟨'S', 'A', 'A', false⟩ true,
    .terminal ⟨'A', 'a', false⟩ false]

private theorem firstViolation_restated :
    FirstViolation restated (.terminal ⟨'A', 'a', false⟩ false)
      (.duplicateTerminal ⟨'A', 'a', false⟩) :=
  ⟨restated.take 4, [], rfl, mistake?_ofSteps_eq_none_iff.1 rfl, .terminal List.mem_cons_self⟩

/-- The first violation is reported without a start key, and also when another violation and a start
key follow; the step that is at fault adds nothing. -/
theorem finish_decides_restated :
    FirstViolation restated (.terminal ⟨'A', 'a', false⟩ false)
        (.duplicateTerminal ⟨'A', 'a', false⟩) ∧
      GrammarError.message (.duplicateTerminal (⟨'A', 'a', false⟩ : TerminalRule Char Char)) =
        "Duplicate Rule: 'A' -> 'a'" ∧
      (ofSteps restated).finish = .error (.duplicateTerminal ⟨'A', 'a', false⟩) ∧
      (ofSteps (restated ++ [.binary ⟨'S', 'A', 'A', false⟩ false, .start 'S'])).finish =
        .error (.duplicateTerminal ⟨'A', 'a', false⟩) ∧
      Step.Repeats (restated.take 4) (.terminal ⟨'A', 'a', false⟩ false) ∧
      (ofSteps restated).rules = (ofSteps (restated.take 4)).rules := by
  obtain ⟨hviolation, hmessage, -, -, hmore, -⟩ := finish_decides restated
  obtain ⟨-, -, -, -, -, hrepeats⟩ := finish_decides (restated.take 4)
  have hfinish := (hviolation _).2 ⟨_, firstViolation_restated⟩
  have hrepeat : Step.Repeats (restated.take 4) (.terminal ⟨'A', 'a', false⟩ false) :=
    .terminal List.mem_cons_self
  have htext : Step.text (.terminal ⟨'A', 'a', false⟩ false) = "'A' -> 'a'" := by decide +kernel
  refine ⟨firstViolation_restated, ?_, hfinish.1, hmore _ hfinish.1 hfinish.2 _, hrepeat,
    hrepeats _ hrepeat⟩
  rw [hmessage _ _ firstViolation_restated, htext]
  rfl

end Draft

end ChartParsing
