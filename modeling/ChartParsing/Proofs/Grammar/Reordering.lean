import ChartParsing.Grammar.Derivation
import ChartParsing.Proofs.Splice.Consistency
import ChartParsing.Proofs.Splice.Trees

/-!
# Rules in another order

A grammar keeps its rules and start keys in an order, but what a key derives is determined by the
rules alone, and so is whether the grammar is consistent. The answers that take the first rule of a
key, on which the splicing of trees rests, depend on the order of the rules unless the grammar is
consistent.

## Main definitions

* `Grammar.Reordered`: grammars of the same rules and start keys in another order.
* `Grammar.SameRules`: grammars with the same rules and start keys.

## Main results

* `Grammar.SameRules.derives_iff`, `Grammar.SameRules.yields_iff`: the same derivations.
* `Grammar.SameRules.consistent_iff`, `Grammar.SameRules.isTemporary?_eq`,
  `Grammar.SameRules.output?_eq`: what splicing has to know.
* `Grammar.SameRules.splice?_eq`: the same spliced trees.
-/

namespace ChartParsing

universe u v

variable {K : Type u} {V : Type v}

namespace Grammar

/-- Two grammars are made of the same rules and start keys, listed in different orders. -/
inductive Reordered [DecidableEq K] [DecidableEq V] : Grammar K V → Grammar K V → Prop where
  /-- The rules of each kind and the start keys are permuted. -/
  | ofRules {terminals terminals' : List (TerminalRule K V)}
      {binaries binaries' : List (BinaryRule K)} {starts starts' : List K}
      (terminals_perm : terminals.Perm terminals')
      (binaries_perm : binaries.Perm binaries') (starts_perm : starts.Perm starts') :
      Reordered (.ofRules terminals binaries starts) (.ofRules terminals' binaries' starts')

/-- Two grammars have the same rules and start keys. -/
structure SameRules (g g' : Grammar K V) : Prop where
  /-- The terminal rules are the same. -/
  mem_terminals : ∀ rule, rule ∈ g.terminals ↔ rule ∈ g'.terminals
  /-- The binary rules are the same. -/
  mem_binaries : ∀ rule, rule ∈ g.binaries ↔ rule ∈ g'.binaries
  /-- The start keys are the same. -/
  mem_starts : ∀ key, key ∈ g.starts ↔ key ∈ g'.starts

theorem Reordered.sameRules [DecidableEq K] [DecidableEq V] {g g' : Grammar K V}
    (h : g.Reordered g') : g.SameRules g' := by
  obtain ⟨hterminals, hbinaries, hstarts⟩ := h
  refine ⟨fun rule => ?_, fun rule => ?_, fun key => ?_⟩
  · exact mem_distinct.trans (hterminals.mem_iff.trans mem_distinct.symm)
  · exact mem_distinct.trans (hbinaries.mem_iff.trans mem_distinct.symm)
  · exact mem_distinct.trans (hstarts.mem_iff.trans mem_distinct.symm)

namespace SameRules

variable {g g' : Grammar K V}

theorem symm (h : g.SameRules g') : g'.SameRules g :=
  ⟨fun rule => (h.mem_terminals rule).symm, fun rule => (h.mem_binaries rule).symm,
    fun key => (h.mem_starts key).symm⟩

/-! ### Derivations -/

theorem derives (h : g.SameRules g') {key : K} {values : List V} (hderives : g.Derives key values) :
    g'.Derives key values := by
  induction hderives with
  | terminal mem => exact .terminal ((h.mem_terminals _).1 mem)
  | binary mem _ _ ihl ihr => exact .binary ((h.mem_binaries _).1 mem) ihl ihr

theorem derives_iff (h : g.SameRules g') {key : K} {values : List V} :
    g.Derives key values ↔ g'.Derives key values :=
  ⟨h.derives, h.symm.derives⟩

theorem yields (h : g.SameRules g') {t : Tree K} {values : List V} (hyields : g.Yields t values) :
    g'.Yields t values := by
  induction hyields with
  | leaf mem => exact .leaf ((h.mem_terminals _).1 mem)
  | node mem _ _ hl hr ihl ihr => exact .node ((h.mem_binaries _).1 mem) ihl ihr hl hr

theorem yields_iff (h : g.SameRules g') {t : Tree K} {values : List V} :
    g.Yields t values ↔ g'.Yields t values :=
  ⟨h.yields, h.symm.yields⟩

/-! ### Consistency -/

theorem hasFlag (h : g.SameRules g') {key : K} {flag : Bool} (hflag : g.HasFlag key flag) :
    g'.HasFlag key flag := by
  cases hflag with
  | binary mem => exact .binary ((h.mem_binaries _).1 mem)
  | terminal mem => exact .terminal ((h.mem_terminals _).1 mem)

theorem hasFlag_iff (h : g.SameRules g') {key : K} {flag : Bool} :
    g.HasFlag key flag ↔ g'.HasFlag key flag :=
  ⟨h.hasFlag, h.symm.hasFlag⟩

theorem consistent (h : g.SameRules g') (hconsistent : g.Consistent) : g'.Consistent where
  flag_eq key a b ha hb := hconsistent.flag_eq key a b (h.hasFlag_iff.2 ha) (h.hasFlag_iff.2 hb)
  output_eq rule hrule other hother :=
    hconsistent.output_eq rule ((h.mem_terminals _).2 hrule) other ((h.mem_terminals _).2 hother)

theorem consistent_iff (h : g.SameRules g') : g.Consistent ↔ g'.Consistent :=
  ⟨h.consistent, h.symm.consistent⟩

variable [DecidableEq K] [DecidableEq V]

/-- In a consistent grammar the first rule of a key may be any of its rules. -/
theorem isTemporary?_eq (h : g.SameRules g') (hconsistent : g.Consistent) :
    g.isTemporary? = g'.isTemporary? := by
  funext key
  refine Option.ext fun flag => ?_
  rw [hconsistent.isTemporary?_eq_some_iff, (h.consistent hconsistent).isTemporary?_eq_some_iff,
    h.hasFlag_iff]

/-- In a consistent grammar the first terminal rule of a key may be any of its terminal rules. -/
theorem output?_eq (h : g.SameRules g') (hconsistent : g.Consistent) : g.output? = g'.output? := by
  funext key
  refine Option.ext fun value => ?_
  rw [hconsistent.output?_eq_some_iff, (h.consistent hconsistent).output?_eq_some_iff]
  simp only [h.mem_terminals]

end SameRules

end Grammar

/-! ### Spliced trees -/

namespace Tree

variable [DecidableEq K] {g g' : Grammar K V}

mutual

private theorem spliceChild?_congr (hflag : g.isTemporary? = g'.isTemporary?)
    (houtput : g.output? = g'.output?) : (t : Tree K) → t.spliceChild? g = t.spliceChild? g'
  | .leaf key => by rw [spliceChild?, spliceChild?, houtput]
  | .node key children => by
    rw [spliceChild?, spliceChild?, spliceChildren?_congr hflag houtput children, hflag]

theorem spliceChildren?_congr (hflag : g.isTemporary? = g'.isTemporary?)
    (houtput : g.output? = g'.output?) :
    (ts : List (Tree K)) → spliceChildren? g ts = spliceChildren? g' ts
  | [] => rfl
  | t :: ts => by
    rw [spliceChildren?, spliceChildren?, spliceChild?_congr hflag houtput t,
      spliceChildren?_congr hflag houtput ts]

end

theorem splice?_congr (hflag : g.isTemporary? = g'.isTemporary?)
    (houtput : g.output? = g'.output?) (t : Tree K) : t.splice? g = t.splice? g' := by
  cases t with
  | leaf key => rw [splice?, splice?, houtput]
  | node key children => rw [splice?, splice?, spliceChildren?_congr hflag houtput children]

end Tree

/-- A consistent grammar splices trees in the same way with its rules in another order. -/
theorem Grammar.SameRules.splice?_eq [DecidableEq K] [DecidableEq V] {g g' : Grammar K V}
    (h : g.SameRules g') (hconsistent : g.Consistent) :
    (Tree.splice? g : Tree K → Option (Tree (Symbol K V))) = Tree.splice? g' :=
  funext (Tree.splice?_congr (h.isTemporary?_eq hconsistent) (h.output?_eq hconsistent))

end ChartParsing
