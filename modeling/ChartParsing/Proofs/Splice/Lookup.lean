import ChartParsing.Proofs.Splice.Conflicts

/-!
# What the table of a grammar says of a key

A table is only made of a grammar in which each key comes with one flag, and each key of a terminal
rule with one output. Looking up a key gives what its first rule says; in such a grammar every other
rule says the same.

## Main definitions

* `Grammar.output?`: the value that a key stands for.

## Main results

* `conflicts_eq_nil_iff`: there are no conflicts if every pair is found by its key.
* `SpliceTable.flag?_eq`, `SpliceTable.output?_eq`: the table against the grammar.
* `SpliceTable.output?_eq_of_mem`: every terminal rule for a key has the same output.
-/

namespace ChartParsing

universe u v w

variable {K : Type u} {V : Type v} [DecidableEq K]

/-! ### Lookups -/

theorem lookup_cons_eq_ite {T : Type v} (key : K) (item : T) (pairs : List (K × T))
    (k : K) :
    ((key, item) :: pairs).lookup k = if k = key then some item else pairs.lookup k := by
  rw [List.lookup_cons]
  by_cases h : k = key
  · rw [if_pos h, beq_iff_eq.2 h]
  · rw [if_neg h, beq_eq_false_iff_ne.2 h]

theorem eq_or_of_lookup_cons_eq_some {α : Type u} {T : Type v} [BEq α] [LawfulBEq α] {a a' : α}
    {item item' : T} {pairs : List (α × T)}
    (h : ((a, item) :: pairs).lookup a' = some item') :
    (a' = a ∧ item' = item) ∨ pairs.lookup a' = some item' := by
  rw [List.lookup_cons] at h
  split at h
  · next heq => exact .inl ⟨beq_iff_eq.1 heq, (Option.some.inj h).symm⟩
  · exact .inr h

/-- Dropping repeats changes no lookup. -/
theorem lookup_distinct {T : Type v} [DecidableEq T] (pairs : List (K × T)) (key : K) :
    (distinct pairs).lookup key = pairs.lookup key := by
  induction pairs using List.reverseRecOn with
  | nil => rfl
  | append_singleton pairs pair ih =>
    obtain ⟨k, item⟩ := pair
    rw [distinct_concat, List.lookup_append, ← ih]
    by_cases hmem : (k, item) ∈ distinct pairs
    · rw [pushNew_of_mem hmem]
      by_cases hkey : key = k
      · have hsome : ((distinct pairs).lookup key).isSome := by
          rw [List.lookup_isSome_iff]
          exact ⟨(k, item), hmem, beq_iff_eq.2 hkey⟩
        rw [Option.or_of_isSome hsome]
      · simp [lookup_cons_eq_ite, hkey]
    · rw [pushNew, if_neg hmem, List.lookup_append]

theorem lookup_map {α : Type v} {T : Type w} (rules : List α) (key : α → K) (item : α → T) (k : K) :
    (rules.map fun rule => (key rule, item rule)).lookup k =
      (rules.find? fun rule => key rule = k).map item := by
  induction rules with
  | nil => rfl
  | cons rule rules ih =>
    by_cases hkey : key rule = k
    · simp [hkey]
    · simp [lookup_cons_eq_ite, hkey, Ne.symm hkey, ih]

/-- There are no conflicts exactly if every pair is found by its key. -/
theorem conflicts_eq_nil_iff {T : Type v} [DecidableEq T] {pairs : List (K × T)} :
    conflicts pairs = [] ↔ ∀ pair ∈ pairs, pairs.lookup pair.1 = some pair.2 := by
  simp only [List.eq_nil_iff_forall_not_mem, mem_conflicts_iff_contradictsAt, ContradictsAt]
  constructor
  · intro h pair hpair
    obtain ⟨n, hn⟩ := List.getElem?_of_mem hpair
    by_contra hne
    exact h pair.1 ⟨n, pair.2, hn, hne⟩
  · rintro h key ⟨n, item, hn, hne⟩
    exact hne (h (key, item) (List.mem_of_getElem? hn))

/-- The value that a key stands for: the output of its first terminal rule. -/
def Grammar.output? (g : Grammar K V) (key : K) : Option V :=
  (g.terminals.find? fun rule => rule.key = key).map TerminalRule.output

theorem Grammar.isTemporary?_eq_lookup [DecidableEq V] (g : Grammar K V) (key : K) :
    g.isTemporary? key = (SpliceTable.ruleFlags g).lookup key := by
  rw [SpliceTable.ruleFlags, List.lookup_append, lookup_map, lookup_map, isTemporary?]
  cases g.binaries.find? fun rule => rule.key = key <;> rfl

theorem Grammar.output?_eq_lookup (g : Grammar K V) (key : K) :
    g.output? key = (SpliceTable.ruleOutputs g).lookup key := by
  rw [SpliceTable.ruleOutputs, lookup_map, output?]

namespace SpliceTable

variable [DecidableEq V] {g : Grammar K V} {t : SpliceTable K V}

/-! ### The table of a grammar -/

theorem ofGrammar_eq_ok_iff :
    ofGrammar g = .ok t ↔ conflicts (ruleFlags g) = [] ∧ conflicts (ruleOutputs g) = [] ∧
      t = ⟨distinct (ruleFlags g), distinct (ruleOutputs g)⟩ := by
  rw [ofGrammar]
  cases hflags : conflicts (ruleFlags g) with
  | cons key keys => simp
  | nil =>
    cases houtputs : conflicts (ruleOutputs g) with
    | cons key keys => simp
    | nil =>
      simp [first_ofPairs_eq_distinct hflags, first_ofPairs_eq_distinct houtputs, eq_comm]

/-- A grammar without a table has keys with different flags, or else with different outputs. -/
theorem eq_of_ofGrammar_eq_error {e : SpliceError K} (h : ofGrammar g = .error e) :
    e = .mixedFlags (conflicts (ruleFlags g)) ∨
      e = .differingOutputs (conflicts (ruleOutputs g)) := by
  rw [ofGrammar] at h
  split at h
  · cases h
    exact .inl rfl
  · split at h
    · cases h
      exact .inr rfl
    · cases h

/-- The flag of a key is what the grammar says of it. -/
theorem flag?_eq (h : ofGrammar g = .ok t) (key : K) : t.flag? key = g.isTemporary? key := by
  obtain ⟨-, -, rfl⟩ := ofGrammar_eq_ok_iff.1 h
  rw [flag?, lookup_distinct, Grammar.isTemporary?_eq_lookup]

/-- The output of a key is the value that the grammar has for it. -/
theorem output?_eq (h : ofGrammar g = .ok t) (key : K) : t.output? key = g.output? key := by
  obtain ⟨-, -, rfl⟩ := ofGrammar_eq_ok_iff.1 h
  rw [output?, lookup_distinct, Grammar.output?_eq_lookup]

/-- Every terminal rule for a key has the output of the key. -/
theorem output?_eq_of_mem (h : ofGrammar g = .ok t) {rule : TerminalRule K V}
    (hrule : rule ∈ g.terminals) : t.output? rule.key = some rule.output := by
  obtain ⟨-, hconflicts, rfl⟩ := ofGrammar_eq_ok_iff.1 h
  rw [output?, lookup_distinct]
  exact conflicts_eq_nil_iff.1 hconflicts _ (List.mem_map_of_mem hrule)

end SpliceTable

end ChartParsing
