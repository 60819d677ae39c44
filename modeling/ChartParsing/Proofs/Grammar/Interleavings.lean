import ChartParsing.Proofs.Grammar.Drafts

/-!
# Rules given one by one and all at once

Rules and start keys can be given to a draft one after another, the three kinds in any interleaving,
or all at once. If they are given quietly, it comes to the same grammar: a draft holds the first
occurrences of each kind, whatever comes between them.

## Main definitions

* `Draft.Interleaves`: steps that add the rules and start keys of three lists, each list in its
  order.

## Main results

* `Draft.Interleaves.finish_eq`: the draft after such steps gives the grammar of the lists.
* `Grammar.ofRules_eq_finish`: the two ways to make a grammar, and what it is made of.
-/

namespace ChartParsing

universe u v

variable {K : Type u} {V : Type v}

namespace Draft

/-! ### Interleavings -/

/-- The steps quietly add the rules and start keys of the lists, each list in its order. -/
inductive Interleaves :
    List (TerminalRule K V) → List (BinaryRule K) → List K → List (Step K V) → Prop where
  /-- There is nothing to add. -/
  | nil : Interleaves [] [] [] []
  /-- The next step adds a terminal rule. -/
  | terminal (rule : TerminalRule K V) {terminals : List (TerminalRule K V)}
      {binaries : List (BinaryRule K)} {starts : List K} {steps : List (Step K V)}
      (rest : Interleaves terminals binaries starts steps) :
      Interleaves (rule :: terminals) binaries starts (.terminal rule true :: steps)
  /-- The next step adds a binary rule. -/
  | binary (rule : BinaryRule K) {terminals : List (TerminalRule K V)}
      {binaries : List (BinaryRule K)} {starts : List K} {steps : List (Step K V)}
      (rest : Interleaves terminals binaries starts steps) :
      Interleaves terminals (rule :: binaries) starts (.binary rule true :: steps)
  /-- The next step adds a start key. -/
  | start (key : K) {terminals : List (TerminalRule K V)}
      {binaries : List (BinaryRule K)} {starts : List K} {steps : List (Step K V)}
      (rest : Interleaves terminals binaries starts steps) :
      Interleaves terminals binaries (key :: starts) (.start key :: steps)

namespace Interleaves

variable {terminals : List (TerminalRule K V)} {binaries : List (BinaryRule K)} {starts : List K}
  {steps : List (Step K V)}

theorem filterMap_terminal? (h : Interleaves terminals binaries starts steps) :
    steps.filterMap Step.terminal? = terminals := by
  induction h with
  | nil => rfl
  | terminal rule _ ih => exact congrArg (rule :: ·) ih
  | binary _ _ ih => exact ih
  | start _ _ ih => exact ih

theorem filterMap_binary? (h : Interleaves terminals binaries starts steps) :
    steps.filterMap Step.binary? = binaries := by
  induction h with
  | nil => rfl
  | terminal _ _ ih => exact ih
  | binary rule _ ih => exact congrArg (rule :: ·) ih
  | start _ _ ih => exact ih

theorem filterMap_start? (h : Interleaves terminals binaries starts steps) :
    steps.filterMap Step.start? = starts := by
  induction h with
  | nil => rfl
  | terminal _ _ ih => exact ih
  | binary _ _ ih => exact ih
  | start key _ ih => exact congrArg (key :: ·) ih

private theorem not_violates (h : Interleaves terminals binaries starts steps) {step : Step K V}
    (hstep : step ∈ steps) (earlier : List (Step K V)) (e : GrammarError K V) :
    ¬step.Violates earlier e := by
  induction h with
  | nil => cases hstep
  | terminal rule _ ih =>
    rcases List.mem_cons.1 hstep with rfl | hstep
    · exact nofun
    · exact ih hstep
  | binary rule _ ih =>
    rcases List.mem_cons.1 hstep with rfl | hstep
    · exact nofun
    · exact ih hstep
  | start key _ ih =>
    rcases List.mem_cons.1 hstep with rfl | hstep
    · exact nofun
    · exact ih hstep

theorem clean (h : Interleaves terminals binaries starts steps) : Clean steps := by
  rintro front step back e rfl
  exact h.not_violates (List.mem_append_right front List.mem_cons_self) front e

variable [DecidableEq K] [DecidableEq V]

/-- With a start key, the finished draft is the grammar of the lists. -/
theorem finish_eq (h : Interleaves terminals binaries starts steps) (hstarts : starts ≠ []) :
    (ofSteps steps).finish = .ok (.ofRules terminals binaries starts) := by
  obtain ⟨key, hkey⟩ := List.exists_mem_of_ne_nil starts hstarts
  rw [← h.filterMap_start?, Step.mem_filterMap_start?] at hkey
  rw [h.clean.finish_eq_ok ⟨key, hkey⟩, h.filterMap_terminal?, h.filterMap_binary?,
    h.filterMap_start?]

end Interleaves

end Draft

/-! ### Two ways to make a grammar -/

namespace Grammar

variable [DecidableEq K] [DecidableEq V]

/-- **The two ways to make a grammar agree.** If rules and start keys, with at least one start key,
are given quietly to a draft in any interleaving, then the finished draft is the grammar of the
lists. It is made of the first occurrences in each of the lists, its start keys are the keys that it
takes for such, and it is the grammar of its own rules and start keys. -/
theorem ofRules_eq_finish (terminals : List (TerminalRule K V)) (binaries : List (BinaryRule K))
    (starts : List K) :
    (starts ≠ [] → ∀ steps, Draft.Interleaves terminals binaries starts steps →
      (Draft.ofSteps steps).finish = .ok (.ofRules terminals binaries starts)) ∧
    FirstOccurrences terminals (ofRules terminals binaries starts).terminals ∧
    FirstOccurrences binaries (ofRules terminals binaries starts).binaries ∧
    FirstOccurrences starts (ofRules terminals binaries starts).starts ∧
    (∀ key, (ofRules terminals binaries starts).isStart key ↔
      key ∈ (ofRules terminals binaries starts).starts) ∧
    ofRules (ofRules terminals binaries starts).terminals
      (ofRules terminals binaries starts).binaries (ofRules terminals binaries starts).starts =
        ofRules terminals binaries starts :=
  ⟨fun hstarts _ h => h.finish_eq hstarts, firstOccurrences_distinct terminals,
    firstOccurrences_distinct binaries, firstOccurrences_distinct starts,
    fun _ => isStart_iff, ofRules_ofRules terminals binaries starts⟩

/-- Steps with repeats of every kind, and with a rule of both flags. -/
def repeats : List (Draft.Step Char Char) :=
  [.start 'S', .terminal ⟨'A', 'a', false⟩ true, .binary ⟨'S', 'A', 'A', false⟩ true,
    .terminal ⟨'A', 'a', true⟩ true, .start 'T', .terminal ⟨'A', 'a', false⟩ true,
    .binary ⟨'S', 'A', 'A', false⟩ true, .start 'S']

private theorem interleaves_repeats :
    Draft.Interleaves [⟨'A', 'a', false⟩, ⟨'A', 'a', true⟩, ⟨'A', 'a', false⟩]
      [⟨'S', 'A', 'A', false⟩, ⟨'S', 'A', 'A', false⟩] ['S', 'T', 'S'] repeats :=
  .start _ (.terminal _ (.binary _ (.terminal _
    (.start _ (.terminal _ (.binary _ (.start _ .nil)))))))

/-- The repeats are dropped, but the rule with the other flag is not one of them. -/
theorem ofRules_eq_finish_repeats :
    ['S', 'T', 'S'] ≠ [] ∧
      Draft.Interleaves [⟨'A', 'a', false⟩, ⟨'A', 'a', true⟩, ⟨'A', 'a', false⟩]
        [⟨'S', 'A', 'A', false⟩, ⟨'S', 'A', 'A', false⟩] ['S', 'T', 'S'] repeats ∧
      (Draft.ofSteps repeats).finish = .ok (Rules.toGrammar ⟨[⟨'A', 'a', false⟩,
        ⟨'A', 'a', true⟩], [⟨'S', 'A', 'A', false⟩], ['S', 'T']⟩) := by
  have hstarts : ['S', 'T', 'S'] ≠ [] := List.cons_ne_nil _ _
  exact ⟨hstarts, interleaves_repeats,
    (ofRules_eq_finish _ _ _).1 hstarts repeats interleaves_repeats⟩

end Grammar

end ChartParsing
