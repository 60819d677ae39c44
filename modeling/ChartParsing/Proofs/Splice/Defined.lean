import ChartParsing.Proofs.Splice.Consistency
import ChartParsing.Proofs.Splice.Forests

/-!
# Forests that can be spliced

With a consistent grammar, splicing succeeds exactly for forests whose keys the grammar defines: the
keys of all leaves below the roots have terminal rules, all other keys have rules, and no root is
temporary. Nothing below the roots is overlooked, be it below temporary forests or in a later
alternative.

## Main definitions

* `SharedForests.Defined`: forests with keys that a grammar defines.

## Main results

* `SharedForests.ownFault?_eq_none_iff`: what is wrong with a node, by the rules of the grammar.
* `SharedForests.splice_succeeds_iff_defined`: when splicing succeeds.
-/

namespace ChartParsing

universe u v

variable {K : Type u} {V : Type v}

namespace SharedForests

/-- The keys below the roots are defined by the grammar, and no root is temporary. -/
structure Defined (fs : SharedForests K) (g : Grammar K V) : Prop where
  /-- The key of a root has rules, which are not temporary. -/
  root : ∀ r ∈ fs.roots, ∀ n, fs.graph.nodes[r]? = some n →
    (∃ flag, g.HasFlag n.label flag) ∧ ¬g.HasFlag n.label true
  /-- The key of a leaf has a terminal rule. -/
  leaf : ∀ i ∈ fs.objects, ∀ n, fs.graph.nodes[i]? = some n → n.isLeaf →
    ∃ rule ∈ g.terminals, rule.key = n.label
  /-- Any other key has a rule. -/
  node : ∀ i ∈ fs.objects, ∀ n, fs.graph.nodes[i]? = some n → ¬n.isLeaf →
    ∃ flag, g.HasFlag n.label flag

variable [DecidableEq K] [DecidableEq V] {t : SpliceTable K V} {g : Grammar K V}

/-- What can be wrong with a node, by the rules of the grammar. -/
theorem ownFault?_eq_none_iff (ht : SpliceTable.ofGrammar g = .ok t) {n : ForestNode K} :
    t.ownFault? n = none ↔
      (n.isLeaf → ∃ rule ∈ g.terminals, rule.key = n.label) ∧
        (¬n.isLeaf → ∃ flag, g.HasFlag n.label flag) := by
  rw [← Grammar.isSome_output?_iff, ← Grammar.isSome_isTemporary?_iff, ← SpliceTable.output?_eq ht,
    ← SpliceTable.flag?_eq ht, SpliceTable.ownFault?]
  by_cases hleaf : n.isLeaf
  · rw [if_pos hleaf]
    cases t.output? n.label <;> simp [hleaf]
  · rw [if_neg hleaf]
    cases t.flag? n.label <;> simp [hleaf]

/-- **Splicing succeeds exactly on defined forests.** With a grammar that can be spliced at all, the
forests below the roots are spliced if and only if each root has a key with rules that are not
temporary, each leaf a key with a terminal rule and each other forest a key with a rule. -/
theorem splice_succeeds_iff_defined (hg : g.Consistent) (fs : SharedForests K) :
    (∃ flat, fs.splice g = .ok flat) ↔ fs.Defined g := by
  obtain ⟨t, ht⟩ := SpliceTable.exists_ofGrammar_eq_ok_iff.2 hg
  have hroot : ∀ key, t.flag? key = some false ↔
      (∃ flag, g.HasFlag key flag) ∧ ¬g.HasFlag key true := fun key => by
    simp only [SpliceTable.flag?_eq ht, ← hg.isTemporary?_eq_some_iff]
    cases g.isTemporary? key with
    | none => simp
    | some flag => cases flag <;> simp
  have htable : (∃ t', SpliceTable.ofGrammar g = .ok t' ∧ t'.firstFault? fs = none) ↔
      t.firstFault? fs = none := by
    simp [ht]
  rw [exists_splice_eq_ok_iff, htable, firstFault?_eq_none_iff_objects]
  simp only [hroot, ownFault?_eq_none_iff ht]
  constructor
  · rintro ⟨hroots, hnodes⟩
    exact ⟨hroots, fun i hi n hn => (hnodes i hi n hn).1, fun i hi n hn => (hnodes i hi n hn).2⟩
  · rintro ⟨hroots, hleaves, hnodes⟩
    exact ⟨hroots, fun i hi n hn => ⟨hleaves i hi n hn, hnodes i hi n hn⟩⟩

end SharedForests

/-- A grammar where a terminal key is temporary, and so is the key of two binary rules. -/
def Grammar.hidden : Grammar Char Char :=
  .ofRules [⟨'a', 'x', false⟩, ⟨'t', 'y', true⟩]
    [⟨'S', 'a', 'T', false⟩, ⟨'T', 'a', 't', true⟩, ⟨'T', 't', 'a', true⟩] ['S']

namespace SharedForests

/-- A temporary leaf below a temporary forest. -/
def hiddenLeaf : SharedForests Char :=
  .ofRoots (.ofNodes [⟨'a', [[]]⟩, ⟨'t', [[]]⟩, ⟨'T', [[0, 1], [1, 0]]⟩, ⟨'S', [[0, 2]]⟩]) [3]

/-- A leaf without a terminal rule, in the last alternative of a temporary forest. -/
def hiddenFault : SharedForests Char :=
  .ofRoots (.ofNodes [⟨'a', [[]]⟩, ⟨'t', [[]]⟩, ⟨'S', [[]]⟩, ⟨'T', [[0, 1], [1, 2]]⟩,
    ⟨'S', [[0, 3]]⟩]) [4]

private theorem defined_hiddenLeaf : hiddenLeaf.Defined .hidden := by
  have hleaves : ∀ n ∈ hiddenLeaf.graph.nodes, n.isLeaf →
      ∃ rule ∈ Grammar.hidden.terminals, rule.key = n.label := by decide
  have hflags : ∀ n ∈ hiddenLeaf.graph.nodes, (Grammar.hidden.isTemporary? n.label).isSome := by
    decide
  have hconsistent : Grammar.hidden.Consistent := Grammar.consistent_iff.2 ⟨by decide, by decide⟩
  have hroots : hiddenLeaf.roots = [3] := by decide
  refine ⟨fun r hr n hn => ?_, fun i _ n hn => hleaves n (Array.mem_of_getElem? hn),
    fun i _ n hn _ => Grammar.isSome_isTemporary?_iff.1 (hflags n (Array.mem_of_getElem? hn))⟩
  rw [hroots, List.mem_singleton] at hr
  subst hr
  have hlabel : n.label = 'S' := (Option.some.inj hn) ▸ rfl
  rw [hlabel, ← hconsistent.isTemporary?_eq_some_iff]
  exact ⟨⟨_, .binary (show ⟨'S', 'a', 'T', false⟩ ∈ Grammar.hidden.binaries by decide)⟩, by decide⟩

/-- The temporary leaf is no fault, and the leaf without a terminal rule is found. -/
theorem splice_succeeds_iff_defined_hidden :
    Grammar.hidden.Consistent ∧ (∃ flat, hiddenLeaf.splice .hidden = .ok flat) ∧
      ¬hiddenFault.Defined .hidden := by
  have hconsistent : Grammar.hidden.Consistent := Grammar.consistent_iff.2 ⟨by decide, by decide⟩
  have herror : hiddenFault.splice .hidden = .error (.valuelessLeaf 'S') := rfl
  refine ⟨hconsistent, (splice_succeeds_iff_defined hconsistent _).2 defined_hiddenLeaf,
    fun hdefined => ?_⟩
  obtain ⟨flat, hflat⟩ := (splice_succeeds_iff_defined hconsistent _).2 hdefined
  cases herror.symm.trans hflat

end SharedForests

end ChartParsing
