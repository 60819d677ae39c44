import ChartParsing.Chart.Basic
import ChartParsing.Grammar.Derivation

/-!
# Derivations of the parts of an input

A derivation of a single value is a use of a terminal rule, and a derivation of more values is a use
of a binary rule at some place that divides them. So what a key derives over a span of an input is
found from what the keys derive over the spans that divide it.

## Main definitions

* `Span.values`: the values of an input over a span.
* `Grammar.pairs`: an ambiguous grammar, as an example.

## Main results

* `Grammar.derives_singleton_iff`, `Grammar.derives_iff_exists_split`: what a key derives.
* `Grammar.yields_singleton_iff`, `Grammar.yields_iff_exists_split`: the same for trees.
* `Span.take_values`, `Span.drop_values`: the values of the two parts of a span.
-/

namespace ChartParsing

universe u v

variable {K : Type u} {V : Type v}

/-! ### Values of a span -/

namespace Span

/-- The values of an input over a span. -/
def values (s : Span) (input : List V) : List V :=
  (input.drop s.start).take s.length

theorem length_values {s : Span} {input : List V} (h : s.stop ≤ input.length) :
    (s.values input).length = s.length := by
  rw [stop] at h
  rw [values, List.length_take, List.length_drop]
  omega

theorem take_values {s : Span} {n : Nat} (h : n ≤ s.length) (input : List V) :
    (s.values input).take n = (⟨n, s.start⟩ : Span).values input := by
  rw [values, values, List.take_take, Nat.min_eq_left h]

theorem drop_values (s : Span) (n : Nat) (input : List V) :
    (s.values input).drop n = (⟨s.length - n, s.start + n⟩ : Span).values input := by
  rw [values, values, List.drop_take, List.drop_drop]

theorem values_of_length_eq_one {s : Span} (hs : s.length = 1) {input : List V} {value : V}
    (h : input[s.start]? = some value) : s.values input = [value] := by
  obtain ⟨hlt, rfl⟩ := List.getElem?_eq_some_iff.1 h
  rw [values, hs, List.drop_eq_getElem_cons hlt]
  rfl

theorem values_whole (input : List V) : (⟨input.length, 0⟩ : Span).values input = input := by
  rw [values, List.drop_zero, List.take_length]

end Span

namespace Grammar

variable {g : Grammar K V}

theorem Derives.length_pos {key : K} {values : List V} (h : g.Derives key values) :
    0 < values.length :=
  List.length_pos_iff.2 h.ne_nil

theorem Yields.length_pos {t : Tree K} {values : List V} (h : g.Yields t values) :
    0 < values.length :=
  h.derives.length_pos

/-! ### What a key derives -/

/-- A single value is derived by a terminal rule. -/
theorem derives_singleton_iff {key : K} {value : V} :
    g.Derives key [value] ↔ ∃ rule ∈ g.terminals, rule.output = value ∧ rule.key = key := by
  constructor
  · intro h
    generalize hvalues : [value] = values at h
    cases h with
    | terminal mem => exact ⟨_, mem, (List.cons.inj hvalues).1.symm, rfl⟩
    | binary _ left right =>
      have hl := left.length_pos
      have hr := right.length_pos
      have hlength := congrArg List.length hvalues
      simp only [List.length_singleton, List.length_append] at hlength
      omega
  · rintro ⟨rule, mem, rfl, rfl⟩
    exact .terminal mem

/-- Several values are derived by a binary rule whose keys derive the values before and after some
place between them. -/
theorem derives_iff_exists_split {key : K} {values : List V} (h : 1 < values.length) :
    g.Derives key values ↔ ∃ n, 0 < n ∧ n < values.length ∧ ∃ rule ∈ g.binaries,
      rule.key = key ∧ g.Derives rule.left (values.take n) ∧
        g.Derives rule.right (values.drop n) := by
  constructor
  · intro hd
    cases hd with
    | terminal _ => exact absurd h (Nat.lt_irrefl 1)
    | @binary rule front back mem left right =>
      have hl := left.length_pos
      have hr := right.length_pos
      refine ⟨front.length, hl, ?_, rule, mem, rfl, ?_, ?_⟩
      · rw [List.length_append]
        omega
      · rwa [List.take_left]
      · rwa [List.drop_left]
  · rintro ⟨n, -, -, rule, mem, rfl, left, right⟩
    rw [← List.take_append_drop n values]
    exact .binary mem left right

/-! ### What a tree yields -/

/-- A tree over a single value is a leaf. -/
theorem yields_singleton_iff {t : Tree K} {value : V} :
    g.Yields t [value] ↔
      ∃ rule ∈ g.terminals, rule.output = value ∧ t = .leaf rule.key := by
  constructor
  · intro h
    generalize hvalues : [value] = values at h
    cases h with
    | leaf mem => exact ⟨_, mem, (List.cons.inj hvalues).1.symm, rfl⟩
    | node _ left right _ _ =>
      have hl := left.length_pos
      have hr := right.length_pos
      have hlength := congrArg List.length hvalues
      simp only [List.length_singleton, List.length_append] at hlength
      omega
  · rintro ⟨rule, mem, rfl, rfl⟩
    exact .leaf mem

/-- A tree over several values is a node with two subtrees, which yield the values before and after
some place between them. -/
theorem yields_iff_exists_split {t : Tree K} {values : List V} (h : 1 < values.length) :
    g.Yields t values ↔ ∃ n, 0 < n ∧ n < values.length ∧ ∃ rule ∈ g.binaries, ∃ l r,
      t = .node rule.key [l, r] ∧ l.key = rule.left ∧ r.key = rule.right ∧
        g.Yields l (values.take n) ∧ g.Yields r (values.drop n) := by
  constructor
  · intro hy
    cases hy with
    | leaf _ => exact absurd h (Nat.lt_irrefl 1)
    | @node rule l r front back mem left right left_key right_key =>
      have hl := left.length_pos
      have hr := right.length_pos
      refine ⟨front.length, hl, ?_, rule, mem, l, r, rfl, left_key, right_key, ?_, ?_⟩
      · rw [List.length_append]
        omega
      · rwa [List.take_left]
      · rwa [List.drop_left]
  · rintro ⟨n, -, -, rule, mem, l, r, rfl, left_key, right_key, left, right⟩
    rw [← List.take_append_drop n values]
    exact .node mem left right left_key right_key

/-! ### An ambiguous grammar -/

/-- An ambiguous grammar for words over `a` and `b`: `S → S S | a b | b a | a T`, with a temporary
key for the end of a longer rule, `T → S b`. -/
def pairs : Grammar Char Char :=
  .ofRules [⟨'a', 'a', false⟩, ⟨'b', 'b', false⟩]
    [⟨'S', 'S', 'S', false⟩, ⟨'S', 'a', 'b', false⟩, ⟨'S', 'b', 'a', false⟩, ⟨'S', 'a', 'T', false⟩,
      ⟨'T', 'S', 'b', true⟩] ['S']

private theorem pairs_yields_a : pairs.Yields (.leaf 'a') ['a'] :=
  .leaf (show ⟨'a', 'a', false⟩ ∈ pairs.terminals by decide)

private theorem pairs_yields_b : pairs.Yields (.leaf 'b') ['b'] :=
  .leaf (show ⟨'b', 'b', false⟩ ∈ pairs.terminals by decide)

private theorem pairs_yields_ab : pairs.Yields (.node 'S' [.leaf 'a', .leaf 'b']) ['a', 'b'] :=
  .node (show ⟨'S', 'a', 'b', false⟩ ∈ pairs.binaries by decide) pairs_yields_a pairs_yields_b
    rfl rfl

theorem pairs_yields_abb :
    pairs.Yields (.node 'T' [.node 'S' [.leaf 'a', .leaf 'b'], .leaf 'b']) ['a', 'b', 'b'] :=
  .node (show ⟨'T', 'S', 'b', true⟩ ∈ pairs.binaries by decide) pairs_yields_ab pairs_yields_b
    rfl rfl

theorem pairs_yields_aabb :
    pairs.Yields
      (.node 'S' [.leaf 'a', .node 'T' [.node 'S' [.leaf 'a', .leaf 'b'], .leaf 'b']])
      ['a', 'a', 'b', 'b'] :=
  .node (show ⟨'S', 'a', 'T', false⟩ ∈ pairs.binaries by decide) pairs_yields_a pairs_yields_abb
    rfl rfl

end Grammar

end ChartParsing
