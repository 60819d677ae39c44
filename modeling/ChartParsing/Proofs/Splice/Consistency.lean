import ChartParsing.Grammar.Derivation
import ChartParsing.Proofs.Grammar.RuleLookup
import ChartParsing.Proofs.Splice.Lookup

/-!
# Grammars that can be spliced

Splicing has to know of each key whether it is temporary, and of the key of each leaf which value it
stands for. A grammar answers this if no key has rules with different flags or terminal rules for
different values; the keys that derive something have an answer.

## Main definitions

* `Grammar.HasFlag`: a rule for a key carries a flag.
* `Grammar.Consistent`: the rules for a key agree.

## Main results

* `conflicts_eq_nil_iff_forall`: there are no conflicts if each key comes with one thing.
* `SpliceTable.exists_ofGrammar_eq_ok_iff`: the consistent grammars are those with a table.
* `Grammar.Consistent.isTemporary?_eq_some_iff`, `Grammar.Consistent.output?_eq_some_iff`: what a
  consistent grammar says of a key.
-/

namespace ChartParsing

universe u v

variable {K : Type u} {V : Type v}

/-! ### Keys that come with one thing -/

section Conflicts

variable {T : Type v} [DecidableEq K] [DecidableEq T] {pairs : List (K × T)}

theorem lookup_eq_some_iff_mem (h : conflicts pairs = []) {key : K} {item : T} :
    pairs.lookup key = some item ↔ (key, item) ∈ pairs :=
  ⟨mem_of_lookup_eq_some, conflicts_eq_nil_iff.1 h (key, item)⟩

/-- There are no conflicts exactly if pairs with the same key are the same. -/
theorem conflicts_eq_nil_iff_forall :
    conflicts pairs = [] ↔ ∀ key a b, (key, a) ∈ pairs → (key, b) ∈ pairs → a = b := by
  simp only [List.eq_nil_iff_forall_not_mem, mem_conflicts_iff, not_exists, not_and, ne_eq, not_not]

end Conflicts

/-! ### Consistent grammars -/

namespace Grammar

/-- A rule for the key carries the flag. -/
inductive HasFlag (g : Grammar K V) : K → Bool → Prop where
  /-- The flag of a binary rule. -/
  | binary {rule : BinaryRule K} (mem : rule ∈ g.binaries) : HasFlag g rule.key rule.temporary
  /-- The flag of a terminal rule. -/
  | terminal {rule : TerminalRule K V} (mem : rule ∈ g.terminals) :
      HasFlag g rule.key rule.temporary

/-- The rules for a key agree on what splicing has to know of it. -/
structure Consistent (g : Grammar K V) : Prop where
  /-- Either all rules for a key are temporary, or none is. -/
  flag_eq : ∀ key a b, g.HasFlag key a → g.HasFlag key b → a = b
  /-- All terminal rules for a key have the same output. -/
  output_eq : ∀ rule ∈ g.terminals, ∀ other ∈ g.terminals, rule.key = other.key →
    rule.output = other.output

variable {g : Grammar K V}

theorem Derives.exists_hasFlag {key : K} {values : List V} (h : g.Derives key values) :
    ∃ flag, g.HasFlag key flag := by
  cases h with
  | terminal mem => exact ⟨_, .terminal mem⟩
  | binary mem => exact ⟨_, .binary mem⟩

theorem mem_ruleFlags {key : K} {flag : Bool} :
    (key, flag) ∈ SpliceTable.ruleFlags g ↔ g.HasFlag key flag := by
  rw [SpliceTable.ruleFlags, List.mem_append, List.mem_map, List.mem_map]
  constructor
  · rintro (⟨rule, hrule, heq⟩ | ⟨rule, hrule, heq⟩)
    · cases heq
      exact .binary hrule
    · cases heq
      exact .terminal hrule
  · rintro (hrule | hrule)
    · exact .inl ⟨_, hrule, rfl⟩
    · exact .inr ⟨_, hrule, rfl⟩

theorem mem_ruleOutputs {key : K} {value : V} :
    (key, value) ∈ SpliceTable.ruleOutputs g ↔
      ∃ rule ∈ g.terminals, rule.key = key ∧ rule.output = value := by
  simp [SpliceTable.ruleOutputs]

variable [DecidableEq K]

theorem isSome_output?_iff {key : K} :
    (g.output? key).isSome ↔ ∃ rule ∈ g.terminals, rule.key = key := by
  rw [output?, Option.isSome_map, List.find?_isSome]
  simp

variable [DecidableEq V]

theorem consistent_iff :
    g.Consistent ↔ conflicts (SpliceTable.ruleFlags g) = [] ∧
      conflicts (SpliceTable.ruleOutputs g) = [] := by
  simp only [conflicts_eq_nil_iff_forall, mem_ruleFlags, mem_ruleOutputs]
  constructor
  · rintro ⟨hflag, houtput⟩
    refine ⟨hflag, ?_⟩
    rintro key _ _ ⟨rule, hrule, hkey, rfl⟩ ⟨other, hother, hkey', rfl⟩
    exact houtput rule hrule other hother (hkey.trans hkey'.symm)
  · rintro ⟨hflag, houtput⟩
    exact ⟨hflag, fun rule hrule other hother hkey =>
      houtput other.key _ _ ⟨rule, hrule, hkey, rfl⟩ ⟨other, hother, rfl, rfl⟩⟩

/-! ### What a grammar says of a key -/

theorem isSome_isTemporary?_iff {key : K} :
    (g.isTemporary? key).isSome ↔ ∃ flag, g.HasFlag key flag := by
  simp only [isTemporary?_eq_lookup, List.lookup_isSome_iff, ← mem_ruleFlags]
  constructor
  · rintro ⟨⟨key', flag⟩, hmem, hkey⟩
    cases beq_iff_eq.1 hkey
    exact ⟨flag, hmem⟩
  · rintro ⟨flag, hmem⟩
    exact ⟨(key, flag), hmem, beq_self_eq_true key⟩

/-- In a consistent grammar the flag of a key is that of any of its rules. -/
theorem Consistent.isTemporary?_eq_some_iff (h : g.Consistent) {key : K} {flag : Bool} :
    g.isTemporary? key = some flag ↔ g.HasFlag key flag := by
  rw [isTemporary?_eq_lookup, lookup_eq_some_iff_mem (consistent_iff.1 h).1, mem_ruleFlags]

/-- In a consistent grammar the output of a key is that of any of its terminal rules. -/
theorem Consistent.output?_eq_some_iff (h : g.Consistent) {key : K} {value : V} :
    g.output? key = some value ↔ ∃ rule ∈ g.terminals, rule.key = key ∧ rule.output = value := by
  rw [output?_eq_lookup, lookup_eq_some_iff_mem (consistent_iff.1 h).2, mem_ruleOutputs]

end Grammar

/-- The consistent grammars are those with a table. -/
theorem SpliceTable.exists_ofGrammar_eq_ok_iff [DecidableEq K] [DecidableEq V] {g : Grammar K V} :
    (∃ t, ofGrammar g = .ok t) ↔ g.Consistent := by
  simp only [ofGrammar_eq_ok_iff, Grammar.consistent_iff]
  constructor
  · rintro ⟨_, hflags, houtputs, -⟩
    exact ⟨hflags, houtputs⟩
  · rintro ⟨hflags, houtputs⟩
    exact ⟨_, hflags, houtputs, rfl⟩

end ChartParsing
