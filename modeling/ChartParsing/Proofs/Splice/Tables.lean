import ChartParsing.Proofs.Grammar.Splitting
import ChartParsing.Proofs.Splice.Consistency
import ChartParsing.Proofs.Splice.Memory

/-!
# Which grammars have a table

A grammar has no table if a key has rules with different flags, or else if a key has terminal rules
for different values; the error names all such keys. Otherwise the table says of each key what its
rules say, and there is a leaf for each key of a terminal rule.

## Main results

* `SpliceTable.ofGrammar_eq_mixedFlags_iff`, `SpliceTable.ofGrammar_eq_differingOutputs_iff`: when
  a grammar has no table, and which keys are at fault.
* `Splicing.exists_leafNode?_iff`: the leaf of a key.
* `SpliceTable.ofGrammar_exact`: tables and errors by the rules of the grammar.
-/

namespace ChartParsing

universe u v

variable {K : Type u} {V : Type v} [DecidableEq K]

/-! ### Leaves of a table -/

namespace Splicing

variable {t : SpliceTable K V} {key : K} {value : V}

theorem exists_leafNode?_of_output? (h : t.output? key = some value) :
    ∃ m, leafNode? t key = some m ∧ (start t).graph.nodes[m]? = some ⟨.value value, [[]]⟩ := by
  cases hleaf : leafNode? t key with
  | none => cases (output?_eq_none_of_leafNode? hleaf).symm.trans h
  | some m =>
    obtain ⟨entry, hentry, -, houtput⟩ := exists_of_leafNode?_eq_some hleaf
    cases houtput.symm.trans h
    exact ⟨m, rfl, by rw [getElem?_nodes_start, hentry]; rfl⟩

/-- The keys with a leaf are those with an output. -/
theorem exists_leafNode?_iff : (∃ m, leafNode? t key = some m) ↔ (t.output? key).isSome := by
  constructor
  · rintro ⟨m, hm⟩
    obtain ⟨entry, -, -, houtput⟩ := exists_of_leafNode?_eq_some hm
    exact houtput ▸ rfl
  · intro h
    obtain ⟨value, hvalue⟩ := Option.isSome_iff_exists.1 h
    obtain ⟨m, hm, -⟩ := exists_leafNode?_of_output? hvalue
    exact ⟨m, hm⟩

end Splicing

/-! ### Grammars at fault -/

namespace Grammar

variable {g : Grammar K V}

/-- Some key has two rules with different flags. -/
def MixesFlags (g : Grammar K V) : Prop :=
  ∃ key a b, g.HasFlag key a ∧ g.HasFlag key b ∧ a ≠ b

/-- Some key has two terminal rules with different outputs. -/
def DiffersInOutputs (g : Grammar K V) : Prop :=
  ∃ rule ∈ g.terminals, ∃ other ∈ g.terminals,
    rule.key = other.key ∧ rule.output ≠ other.output

private theorem conflicts_ruleFlags_ne_nil_iff :
    conflicts (SpliceTable.ruleFlags g) ≠ [] ↔ g.MixesFlags := by
  simp only [conflicts_ne_nil_iff, mem_ruleFlags]
  rfl

private theorem conflicts_ruleOutputs_ne_nil_iff [DecidableEq V] :
    conflicts (SpliceTable.ruleOutputs g) ≠ [] ↔ g.DiffersInOutputs := by
  simp only [conflicts_ne_nil_iff, mem_ruleOutputs]
  constructor
  · rintro ⟨key, _, _, ⟨rule, hrule, hkey, rfl⟩, ⟨other, hother, hkey', rfl⟩, hne⟩
    exact ⟨rule, hrule, other, hother, hkey.trans hkey'.symm, hne⟩
  · rintro ⟨rule, hrule, other, hother, hkey, hne⟩
    exact ⟨other.key, _, _, ⟨rule, hrule, hkey, rfl⟩, ⟨other, hother, rfl, rfl⟩, hne⟩

end Grammar

/-! ### Tables and errors -/

namespace SpliceTable

variable [DecidableEq V] {g : Grammar K V}

theorem ofGrammar_eq_mixedFlags_iff {keys : List K} :
    ofGrammar g = .error (.mixedFlags keys) ↔ keys = conflicts (ruleFlags g) ∧ keys ≠ [] := by
  rw [ofGrammar]
  cases conflicts (ruleFlags g) with
  | nil => cases conflicts (ruleOutputs g) <;> simp
  | cons key others => simp +contextual [eq_comm]

theorem ofGrammar_eq_differingOutputs_iff {keys : List K} :
    ofGrammar g = .error (.differingOutputs keys) ↔
      conflicts (ruleFlags g) = [] ∧ keys = conflicts (ruleOutputs g) ∧ keys ≠ [] := by
  rw [ofGrammar]
  cases conflicts (ruleFlags g) with
  | cons key others => simp
  | nil =>
    cases conflicts (ruleOutputs g) with
    | nil => simp
    | cons key others => simp +contextual [eq_comm]

/-- **The check of a grammar is exact.** The flags are at fault if and only if a key has two rules
with different flags, and the outputs if and only if that is not so and a key has two terminal rules
with different outputs. Either way the error lists the keys for which that is so, each once, in the
order of the rules that first contradict the first rule of their key, where binary rules come before
terminal ones. Otherwise there is a table. It has a flag for the keys for which the grammar has one,
the same one, which is that of every rule of the key; and the keys of terminal rules have a leaf,
which carries the output of every terminal rule of the key. -/
theorem ofGrammar_exact (g : Grammar K V) :
    ((∃ keys, ofGrammar g = .error (.mixedFlags keys)) ↔ g.MixesFlags) ∧
    (∀ keys, ofGrammar g = .error (.mixedFlags keys) → ListsConflicts (ruleFlags g) keys) ∧
    ((∃ keys, ofGrammar g = .error (.differingOutputs keys)) ↔
      ¬g.MixesFlags ∧ g.DiffersInOutputs) ∧
    (∀ keys, ofGrammar g = .error (.differingOutputs keys) →
      ListsConflicts (ruleOutputs g) keys) ∧
    ((∃ t, ofGrammar g = .ok t) ↔ ¬g.MixesFlags ∧ ¬g.DiffersInOutputs) ∧
    ∀ t, ofGrammar g = .ok t →
      (∀ key, t.flag? key = g.isTemporary? key) ∧
      (∀ key flag, g.HasFlag key flag → t.flag? key = some flag) ∧
      (∀ key, (∃ m, Splicing.leafNode? t key = some m) ↔ ∃ rule ∈ g.terminals, rule.key = key) ∧
      ∀ rule ∈ g.terminals, ∃ m, Splicing.leafNode? t rule.key = some m ∧
        (Splicing.start t).graph.nodes[m]? = some ⟨.value rule.output, [[]]⟩ := by
  simp only [← Grammar.conflicts_ruleFlags_ne_nil_iff, ← Grammar.conflicts_ruleOutputs_ne_nil_iff,
    ofGrammar_eq_mixedFlags_iff, ofGrammar_eq_differingOutputs_iff, not_not]
  refine ⟨by simp, ?_, by simp, ?_, by simp [ofGrammar_eq_ok_iff], fun t ht => ?_⟩
  · rintro keys ⟨rfl, -⟩
    exact listsConflicts_conflicts _
  · rintro keys ⟨-, rfl, -⟩
    exact listsConflicts_conflicts _
  · have hconsistent : g.Consistent := exists_ofGrammar_eq_ok_iff.1 ⟨t, ht⟩
    refine ⟨flag?_eq ht, fun key flag hflag => ?_, fun key => ?_, fun rule hrule => ?_⟩
    · rw [flag?_eq ht]
      exact hconsistent.isTemporary?_eq_some_iff.2 hflag
    · rw [Splicing.exists_leafNode?_iff, output?_eq ht, Grammar.isSome_output?_iff]
    · exact Splicing.exists_leafNode?_of_output? (output?_eq_of_mem ht hrule)

end SpliceTable

namespace Grammar

/-- Three keys have rules with both flags: `T` is contradicted before `S` is, and `a` by a terminal
rule. -/
def tangled : Grammar Char Char :=
  .ofRules [⟨'a', 'x', false⟩, ⟨'b', 'y', false⟩, ⟨'a', 'x', true⟩]
    [⟨'S', 'a', 'b', false⟩, ⟨'T', 'a', 'a', true⟩, ⟨'T', 'b', 'b', false⟩, ⟨'T', 'a', 'b', true⟩,
      ⟨'S', 'b', 'b', true⟩] ['S']

/-- The terminal rules for `O` differ, and so do those for `E`, where that shows earlier. -/
def overloaded : Grammar Char Char :=
  .ofRules [⟨'O', '+', false⟩, ⟨'E', 'n', false⟩, ⟨'E', 'm', false⟩, ⟨'O', '*', false⟩]
    [⟨'S', 'E', 'O', false⟩] ['S']

end Grammar

namespace SpliceTable

/-- One grammar with differing flags, one with differing outputs, and one that has a table. -/
theorem ofGrammar_exact_tangled :
    (ofGrammar .tangled = .error (.mixedFlags ['T', 'S', 'a']) ∧
      ListsConflicts (ruleFlags .tangled) ['T', 'S', 'a']) ∧
    (ofGrammar .overloaded = .error (.differingOutputs ['E', 'O']) ∧
      ListsConflicts (ruleOutputs .overloaded) ['E', 'O']) ∧
    ∃ t, ofGrammar .pairs = .ok t ∧ t.flag? 'T' = some true ∧
      (⟨'b', 'b', false⟩ ∈ Grammar.pairs.terminals ∧ ∃ m, Splicing.leafNode? t 'b' = some m ∧
        (Splicing.start t).graph.nodes[m]? = some ⟨.value 'b', [[]]⟩) := by
  have htangled : ofGrammar .tangled = .error (.mixedFlags ['T', 'S', 'a']) := rfl
  have hoverloaded : ofGrammar .overloaded = .error (.differingOutputs ['E', 'O']) := rfl
  obtain ⟨-, hflags, -⟩ := ofGrammar_exact .tangled
  obtain ⟨-, -, -, houtputs, -⟩ := ofGrammar_exact .overloaded
  obtain ⟨t, ht⟩ : ∃ t, ofGrammar .pairs = .ok t := ⟨_, rfl⟩
  obtain ⟨-, -, -, -, -, htable⟩ := ofGrammar_exact .pairs
  obtain ⟨-, hflag, -, hleaf⟩ := htable t ht
  have hmem : ⟨'b', 'b', false⟩ ∈ Grammar.pairs.terminals := by decide
  have htemporary : Grammar.pairs.HasFlag 'T' true :=
    .binary (show ⟨'T', 'S', 'b', true⟩ ∈ Grammar.pairs.binaries by decide)
  exact ⟨⟨htangled, hflags _ htangled⟩, ⟨hoverloaded, houtputs _ hoverloaded⟩, t, ht,
    hflag 'T' true htemporary, hmem, hleaf _ hmem⟩

end SpliceTable

end ChartParsing
