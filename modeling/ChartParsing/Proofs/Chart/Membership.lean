import ChartParsing.Parser
import ChartParsing.Proofs.Chart.Entries
import ChartParsing.Proofs.Grammar.Splitting

/-!
# A chart decides what keys derive

The cell of a span lists exactly the keys that derive the values over it. The proof is by induction
on the length of the span: a single value is derived by terminal rules, and several values by a
binary rule whose two keys are listed for the parts that the span is divided into.

## Main results

* `Chart.exists_lists_iff_derives`: a key is listed for a span exactly when it derives it.
* `Parser.mem_roots`: the roots of a chart are the items of start keys over the whole input.
* `Parser.chart_decides_derives`: membership in cells and recognition decide derivability.
-/

namespace ChartParsing

universe u v

variable {K : Type u} {V : Type v} [DecidableEq K] [DecidableEq V]

namespace Chart

variable {g : Grammar K V} {input : List V}

/-- Over one input value the listed keys are those with a terminal rule for it. -/
theorem exists_lists_iff_of_length_eq_one {s : Span} (hs : s.Within input.length)
    (hone : s.length = 1) {key : K} :
    (∃ number, (ofInput (.ofGrammar g) input).Lists s key number) ↔
      g.Derives key (s.values input) := by
  have hstop := hs.stop_le
  rw [Span.stop] at hstop
  have hvalue := List.getElem?_eq_getElem (show s.start < input.length by omega)
  rw [exists_lists_iff hs, contents_of_length_eq_one hone hvalue,
    Span.values_of_length_eq_one hone hvalue, Grammar.derives_singleton_iff,
    ← RuleTable.mem_producing]
  simp [Function.comp_def]

/-- Over several input values the listed keys are those with a binary rule for keys that are listed
for the two parts of the span, divided somewhere. -/
theorem exists_lists_iff_of_one_lt {s : Span} (hs : s.Within input.length) (hone : 1 < s.length)
    {key : K} :
    (∃ number, (ofInput (.ofGrammar g) input).Lists s key number) ↔
      ∃ n, 0 < n ∧ n < s.length ∧ ∃ rule ∈ g.binaries, rule.key = key ∧
        (∃ l, (ofInput (.ofGrammar g) input).Lists ⟨n, s.start⟩ rule.left l) ∧
        ∃ r, (ofInput (.ofGrammar g) input).Lists ⟨s.length - n, s.start + n⟩ rule.right r := by
  rw [exists_lists_iff hs, contents_of_one_lt hone, map_fst_grouped, mem_distinct, List.mem_map]
  constructor
  · rintro ⟨⟨key', joint⟩, hmem, rfl⟩
    obtain ⟨n, hpos, hlt, leftKey, rightKey, hl, hr, hkey⟩ :=
      (mem_joined (agrees_ofInput _ input)).1 hmem
    obtain ⟨rule, hrule, rfl, rfl, rfl⟩ := RuleTable.mem_joining.1 hkey
    exact ⟨n, hpos, hlt, rule, hrule, rfl, ⟨joint.left, hl⟩, joint.right, hr⟩
  · rintro ⟨n, hpos, hlt, rule, hrule, rfl, ⟨l, hl⟩, r, hr⟩
    have hkey := RuleTable.mem_joining.2 ⟨rule, hrule, rfl, rfl, rfl⟩
    exact ⟨(rule.key, ⟨l, r⟩), (mem_joined (agrees_ofInput _ input)).2
      ⟨n, hpos, hlt, _, _, hl, hr, hkey⟩, rfl⟩

/-- A key is listed for a span exactly when it derives the values over it. -/
theorem exists_lists_iff_derives {s : Span} (hs : s.Within input.length) {key : K} :
    (∃ number, (ofInput (.ofGrammar g) input).Lists s key number) ↔
      g.Derives key (s.values input) := by
  induction hlength : s.length using Nat.strongRecOn generalizing s key with
  | ind length ih =>
    subst hlength
    have hpos := hs.length_pos
    have hstop := hs.stop_le
    have hvalues := Span.length_values hstop
    by_cases hone : s.length = 1
    · exact exists_lists_iff_of_length_eq_one hs hone
    · rw [exists_lists_iff_of_one_lt hs (by omega), Grammar.derives_iff_exists_split (by omega),
        hvalues]
      refine exists_congr fun n => and_congr_right fun hn => and_congr_right fun hlt => ?_
      simp only [Span.take_values (Nat.le_of_lt hlt), Span.drop_values,
        ih n hlt (hs.leftPart hn hlt) rfl,
        ih (s.length - n) (Nat.sub_lt hpos hn) (hs.rightPart hlt) rfl]

/-- A key is listed for the whole input exactly when it derives the input. -/
theorem exists_lists_whole_iff_derives (hinput : input ≠ []) {key : K} :
    (∃ number, (ofInput (.ofGrammar g) input).Lists ⟨input.length, 0⟩ key number) ↔
      g.Derives key input := by
  rw [exists_lists_iff_derives (Span.within_whole hinput), Span.values_whole]

end Chart

namespace Parser

variable {g : Grammar K V} {input : List V}

theorem chart_of_ne_nil (p : Parser K V) (h : input ≠ []) :
    p.chart input = .ok (.ofInput p.table input) := by
  rw [chart, if_neg (by simpa using h)]

theorem root?_eq (t : RuleTable K V) (input : List V) :
    (Chart.ofInput t input).root? = (Chart.ofInput t input).cell? input.length 0 := by
  rw [Chart.root?, Chart.ofInput, Chart.inputLength_filled]

/-- The keys of the items over the whole input are those that the cell finds them by. -/
theorem roots_eq {p : Parser K V} {cell : Cell K}
    (hcell : (Chart.ofInput p.table input).cell? input.length 0 = some cell) :
    p.roots (.ofInput p.table input) =
      (cell.entries.filter fun entry => p.grammar.isStart entry.1).map Prod.snd := by
  rw [roots, root?_eq, hcell, ← Chart.keyed_eq (Chart.agrees_of_cell?_ofInput hcell)]

/-- The roots of a chart are the items of start keys over the whole input. -/
theorem mem_roots {p : Parser K V} {number : Nat} :
    number ∈ p.roots (.ofInput p.table input) ↔
      ∃ key ∈ p.grammar.starts,
        (Chart.ofInput p.table input).Lists ⟨input.length, 0⟩ key number := by
  cases hcell : (Chart.ofInput p.table input).cell? input.length 0 with
  | none => simp [roots, root?_eq, Chart.Lists, hcell]
  | some cell =>
    rw [roots_eq hcell]
    simp only [List.mem_map, List.mem_filter, Grammar.isStart_iff, Prod.exists, exists_eq_right,
      Chart.Lists, hcell, Option.some.injEq, exists_eq_left']
    exact exists_congr fun key => and_comm

theorem exists_mem_roots_iff (hinput : input ≠ []) :
    (∃ number, number ∈ (ofGrammar g).roots (.ofInput (ofGrammar g).table input)) ↔
      ∃ key ∈ g.starts, g.Derives key input := by
  simp only [mem_roots]
  constructor
  · rintro ⟨number, key, hkey, hlisted⟩
    exact ⟨key, hkey, (Chart.exists_lists_whole_iff_derives hinput).1 ⟨number, hlisted⟩⟩
  · rintro ⟨key, hkey, hderives⟩
    obtain ⟨number, hlisted⟩ := (Chart.exists_lists_whole_iff_derives hinput).2 hderives
    exact ⟨number, key, hkey, hlisted⟩

theorem recognize_of_ne_nil (p : Parser K V) (h : input ≠ []) :
    p.recognize input = .ok (!(p.roots (.ofInput p.table input)).isEmpty) := by
  rw [recognize, chart_of_ne_nil p h]
  rfl

theorem recognize_nil (p : Parser K V) : p.recognize ([] : List V) = .error .emptyInput := rfl

theorem recognize_eq_true_iff :
    (ofGrammar g).recognize input = .ok true ↔ ∃ key ∈ g.starts, g.Derives key input := by
  by_cases hinput : input = []
  · subst hinput
    rw [recognize_nil]
    exact ⟨nofun, fun ⟨_, _, h⟩ => absurd rfl h.ne_nil⟩
  · rw [recognize_of_ne_nil _ hinput, ← exists_mem_roots_iff hinput]
    cases (ofGrammar g).roots (.ofInput (ofGrammar g).table input) with
    | nil => simp
    | cons number numbers => simp

/-- **A chart decides derivability.** Every span of a non-empty input has a cell, and the keys that
the cell has an item for are those that derive the values over the span. So an input is recognized
exactly when a start key derives it, and it is refused only if it is empty. -/
theorem chart_decides_derives (g : Grammar K V) (input : List V) :
    (input ≠ [] → ∃ c, (ofGrammar g).chart input = .ok c ∧
      ∀ length start, 1 ≤ length → length ≤ input.length → start ≤ input.length - length →
        ∃ cell, c.cell? length start = some cell ∧
          ∀ key, (∃ number, cell.get? key = some number) ↔
            g.Derives key ((input.drop start).take length)) ∧
    ((ofGrammar g).recognize input = .ok true ↔ ∃ key ∈ g.starts, g.Derives key input) ∧
    ((ofGrammar g).recognize input = .ok false ↔
      input ≠ [] ∧ ¬∃ key ∈ g.starts, g.Derives key input) ∧
    (∀ e, (ofGrammar g).recognize input = .error e ↔ e = .emptyInput ∧ input = []) := by
  refine ⟨fun hinput => ⟨_, chart_of_ne_nil _ hinput, ?_⟩, recognize_eq_true_iff, ?_, ?_⟩
  · intro length start hpos hlength hstart
    have hs : Span.Within ⟨length, start⟩ input.length :=
      ⟨hpos, by simp only [Span.stop]; omega⟩
    have hcell := Chart.cell?_ofInput (t := .ofGrammar g) hs
    refine ⟨_, hcell, fun key => ?_⟩
    simp only [Chart.get?_eq_some_iff hcell]
    exact Chart.exists_lists_iff_derives hs
  · by_cases hinput : input = []
    · subst hinput
      simp [recognize_nil]
    · rw [← recognize_eq_true_iff, recognize_of_ne_nil _ hinput]
      cases (ofGrammar g).roots (.ofInput (ofGrammar g).table input) <;> simp [hinput]
  · intro e
    by_cases hinput : input = []
    · subst hinput
      simp [recognize_nil]
    · simp [recognize_of_ne_nil _ hinput, hinput]

/-- In `aabb` the part `abb` has an item with the temporary key `T`. -/
theorem chart_decides_derives_pairs :
    ['a', 'a', 'b', 'b'] ≠ [] ∧ (1 ≤ 3 ∧ 3 ≤ 4 ∧ 1 ≤ 4 - 3) ∧
      ∃ c, (ofGrammar .pairs).chart ['a', 'a', 'b', 'b'] = .ok c ∧
        ∃ cell, c.cell? 3 1 = some cell ∧ ∃ number, cell.get? 'T' = some number := by
  have hbounds : 1 ≤ 3 ∧ 3 ≤ 4 ∧ 1 ≤ 4 - 3 := by decide
  refine ⟨by decide, hbounds, ?_⟩
  obtain ⟨c, hc, hcells⟩ :=
    (chart_decides_derives Grammar.pairs ['a', 'a', 'b', 'b']).1 (by decide)
  obtain ⟨cell, hcell, hkeys⟩ := hcells 3 1 hbounds.1 hbounds.2.1 hbounds.2.2
  exact ⟨c, hc, cell, hcell, (hkeys 'T').2 Grammar.pairs_yields_abb.derives⟩

end Parser

end ChartParsing
