import ChartParsing.Proofs.Chart.Derivations
import ChartParsing.Proofs.Splice.Consistency
import ChartParsing.Proofs.Splice.Forests

/-!
# Splicing what a parser returns

Every label in a parse is the key of an item, which derives the values of a span. So it has a rule,
and where the span holds a single value, which is where the forest is a leaf, it has a terminal
rule. So the forests of a parse have no fault but for temporary keys of roots, and a parse is
spliced unless its grammar is not consistent or a root is temporary.

## Main results

* `Chart.Lists.fault?_eq_none`: the forest of an item has no fault.
* `Parser.firstFault?_forests`: the first fault of a parse is its first temporary root.
* `Parser.splice_parse_faults`: when the forests of a parse are spliced, and what is reported else.
-/

namespace ChartParsing

universe u v w

private theorem findSome?_eq_map_find?_map {α : Type u} {β : Type v} {γ : Type w} {l : List α}
    {f : α → Option γ} {key : α → β} {p : β → Bool} {value : β → γ}
    (h : ∀ a ∈ l, f a = if p (key a) then some (value (key a)) else none) :
    l.findSome? f = ((l.map key).find? p).map value := by
  induction l with
  | nil => rfl
  | cons a l ih =>
    rw [List.forall_mem_cons] at h
    rw [List.findSome?_cons, List.map_cons, List.find?_cons, h.1, ih h.2]
    cases p (key a) <;> rfl

variable {K : Type u} {V : Type v} [DecidableEq K] [DecidableEq V]
variable {g : Grammar K V} {t : SpliceTable K V} {input : List V}

namespace Chart

/-! ### Forests of items -/

theorem Lists.exists_hasFlag {s : Span} {key : K} {number : Nat}
    (h : (ofInput (.ofGrammar g) input).Lists s key number) : ∃ flag, g.HasFlag key flag :=
  ((exists_lists_iff_derives h.within).1 ⟨number, h⟩).exists_hasFlag

/-- The forest of an item has no fault. -/
theorem Lists.fault?_eq_none (ht : SpliceTable.ofGrammar g = .ok t) {s : Span} {key : K}
    {number : Nat} (h : (ofInput (.ofGrammar g) input).Lists s key number) {f : Forest K}
    (hf : (ofInput (.ofGrammar g) input).graph.forestAt? number = some f) : f.fault? t = none := by
  induction number using Nat.strongRecOn generalizing s key f with
  | ind number ih =>
    have hbelow := partsBelow_ofInput g input
    obtain ⟨joints, hitem, -⟩ := h.exists_item
    by_cases hjoints : joints = []
    · -- The item stands over one value, so a terminal rule says what its leaf stands for.
      cases hf.symm.trans (hbelow.forestAt?_graph_of_terminal hitem hjoints)
      rw [Forest.fault?_of_isLeaf rfl, SpliceTable.output?_eq ht, Grammar.isSome_output?_iff]
      obtain ⟨rule, hrule, hkey, -⟩ :=
        h.exists_terminal_of_length_eq_one ((h.joints_eq_nil_iff hitem).1 hjoints)
      exact ⟨rule, hrule, hkey⟩
    · cases hf.symm.trans (hbelow.forestAt?_graph_of_joints hitem hjoints)
      rw [Forest.fault?_of_not_isLeaf (hbelow.not_isLeaf_of_joints hitem hjoints),
        SpliceTable.flag?_eq ht, Grammar.isSome_isTemporary?_iff]
      refine ⟨h.exists_hasFlag, fun children hchildren child hchild => ?_⟩
      obtain ⟨joint, hjoint, rfl⟩ := List.mem_map.1 hchildren
      obtain ⟨part, hpart, hforest⟩ := List.mem_filterMap.1 hchild
      obtain ⟨n, hpos, hlt, rule, -, -, hl, hr⟩ := (h.mem_joints hitem).1 hjoint
      rcases List.mem_pair.1 hpart with rfl | rfl
      · exact ih _ (hl.number_lt h (.inl hlt)) hl hforest
      · exact ih _ (hr.number_lt h (.inl (Nat.sub_lt h.within.length_pos hpos))) hr hforest

end Chart

namespace Parser

/-! ### Forests of a parse -/

private theorem fault?_of_mem_forests (ht : SpliceTable.ofGrammar g = .ok t) {f : Forest K}
    (hf : f ∈ ((ofGrammar g).forests (.ofInput (.ofGrammar g) input)).toForests) :
    f.fault? t = none := by
  rw [toForests_forests] at hf
  obtain ⟨number, hroot, hforest⟩ := List.mem_filterMap.1 hf
  obtain ⟨key, -, hlists⟩ := mem_roots.1 hroot
  exact hlists.fault?_eq_none ht hforest

/-- The first fault of a parse is its first temporary root. -/
theorem firstFault?_forests (hinput : input ≠ []) (ht : SpliceTable.ofGrammar g = .ok t) :
    t.firstFault? ((ofGrammar g).forests (.ofInput (.ofGrammar g) input)) =
      ((((ofGrammar g).forests (.ofInput (.ofGrammar g) input)).toForests.map Forest.label).find?
        fun key => g.isTemporary? key = some true).map .temporaryRoot := by
  rw [SpliceTable.firstFault?]
  refine findSome?_eq_map_find?_map fun f hf => ?_
  obtain ⟨-, hderives⟩ := (mem_labels_forests hinput).1 (List.mem_map_of_mem hf)
  obtain ⟨flag, hflag⟩ := Option.isSome_iff_exists.1
    (Grammar.isSome_isTemporary?_iff.2 hderives.exists_hasFlag)
  rw [fault?_of_mem_forests ht hf, Option.or_none, SpliceTable.rootFault?, SpliceTable.flag?_eq ht,
    hflag]
  cases flag <;> rfl

/-- No root of a parse is temporary exactly if no start key is that derives the input. -/
theorem firstFault?_forests_eq_none_iff (hinput : input ≠ [])
    (ht : SpliceTable.ofGrammar g = .ok t) :
    t.firstFault? ((ofGrammar g).forests (.ofInput (.ofGrammar g) input)) = none ↔
      ∀ key ∈ g.starts, g.Derives key input → g.isTemporary? key ≠ some true := by
  rw [firstFault?_forests hinput ht, Option.map_eq_none_iff, List.find?_eq_none]
  simp only [mem_labels_forests hinput, decide_eq_true_eq, and_imp, ne_eq]

/-- A parse is spliced exactly if the grammar is consistent and no root is temporary. -/
theorem exists_splice_forests_eq_ok_iff (g : Grammar K V) (hinput : input ≠ []) :
    (∃ flat, ((ofGrammar g).forests (.ofInput (.ofGrammar g) input)).splice g = .ok flat) ↔
      g.Consistent ∧ ∀ key ∈ g.starts, g.Derives key input → g.isTemporary? key ≠ some true := by
  rw [SharedForests.exists_splice_eq_ok_iff, ← SpliceTable.exists_ofGrammar_eq_ok_iff]
  constructor
  · rintro ⟨t, ht, hfault⟩
    exact ⟨⟨t, ht⟩, (firstFault?_forests_eq_none_iff hinput ht).1 hfault⟩
  · rintro ⟨⟨t, ht⟩, hroots⟩
    exact ⟨t, ht, (firstFault?_forests_eq_none_iff hinput ht).2 hroots⟩

theorem eq_of_splice_forests_eq_error (hinput : input ≠ []) {e : SpliceError K}
    (h : ((ofGrammar g).forests (.ofInput (.ofGrammar g) input)).splice g = .error e) :
    SpliceTable.ofGrammar g = .error e ∨ ∃ key, e = .temporaryRoot key := by
  rcases SharedForests.splice_eq_error_iff.1 h with hgrammar | ⟨t, ht, hfault⟩
  · exact .inl hgrammar
  · rw [firstFault?_forests hinput ht, Option.map_eq_some_iff] at hfault
    obtain ⟨key, -, rfl⟩ := hfault
    exact .inr ⟨key, rfl⟩

/-- **Splicing a parse fails for three reasons only.** The forests of a parse are spliced exactly if
no key has rules with different flags, no key has terminal rules for different values, and no start
key that derives the input is temporary. With a consistent grammar the error names the first root
that is temporary. It never is that a key has no rules or that the key of a leaf has no terminal
rule. -/
theorem splice_parse_faults [Literal K] (g : Grammar K V) {input : List V} (hinput : input ≠ []) :
    ∃ fs, (ofGrammar g).parse input = .ok fs ∧
      ((∃ flat, fs.splice g = .ok flat) ↔ g.Consistent ∧
        ∀ key ∈ g.starts, g.Derives key input → g.isTemporary? key ≠ some true) ∧
      (g.Consistent → ∀ key ∈ g.starts, g.Derives key input → g.isTemporary? key = some true →
        ∃ root, (fs.toForests.map Forest.label).find?
            (fun label => g.isTemporary? label = some true) = some root ∧
          fs.splice g = .error (.temporaryRoot root) ∧
          (SpliceError.temporaryRoot root).message =
            "Unflattenable Forest: root rule " ++ literal root ++ " is temporary") ∧
      ∀ key, fs.splice g ≠ .error (.undefinedKey key) ∧
        fs.splice g ≠ .error (.valuelessLeaf key) := by
  refine ⟨_, parse_of_ne_nil g hinput, exists_splice_forests_eq_ok_iff g hinput,
    fun hconsistent key hstart hderives htemporary => ?_, fun key => ?_⟩
  · obtain ⟨t, ht⟩ := SpliceTable.exists_ofGrammar_eq_ok_iff.2 hconsistent
    have hlabel := (mem_labels_forests hinput).2 ⟨hstart, hderives⟩
    have hsome : ((((ofGrammar g).forests (.ofInput (.ofGrammar g) input)).toForests.map
        Forest.label).find? fun label => g.isTemporary? label = some true).isSome :=
      List.find?_isSome.2 ⟨key, hlabel, decide_eq_true htemporary⟩
    obtain ⟨root, hroot⟩ := Option.isSome_iff_exists.1 hsome
    refine ⟨root, hroot, SharedForests.splice_eq_error_iff.2 (.inr ⟨t, ht, ?_⟩), rfl⟩
    rw [firstFault?_forests hinput ht, hroot]
    rfl
  · have herror : ∀ e, ((ofGrammar g).forests (.ofInput (.ofGrammar g) input)).splice g = .error e →
        e ≠ .undefinedKey key ∧ e ≠ .valuelessLeaf key := by
      intro e he
      rcases eq_of_splice_forests_eq_error hinput he with hgrammar | ⟨root, rfl⟩
      · rcases SpliceTable.eq_of_ofGrammar_eq_error hgrammar with rfl | rfl <;> exact ⟨nofun, nofun⟩
      · exact ⟨nofun, nofun⟩
    exact ⟨fun h => (herror _ h).1 rfl, fun h => (herror _ h).2 rfl⟩

end Parser

/-- A grammar with three start keys for a pair of values, two of them temporary. The key `S` has
both terminal and binary rules, and there are no rules for the key `U`. -/
def Grammar.detours : Grammar Char Char :=
  .ofRules [⟨'S', 'x', false⟩]
    [⟨'S', 'U', 'S', false⟩, ⟨'S', 'S', 'S', false⟩, ⟨'Y', 'S', 'S', true⟩, ⟨'Z', 'S', 'S', true⟩]
    ['Z', 'S', 'Y']

/-- Of the temporary roots of `xx`, the one that the parser returns first is reported. -/
theorem Parser.splice_parse_faults_detours :
    ['x', 'x'] ≠ [] ∧ Grammar.detours.Consistent ∧ Grammar.detours.Derives 'Z' ['x', 'x'] ∧
      ∃ fs, (ofGrammar .detours).parse ['x', 'x'] = .ok fs ∧
        fs.toForests.map Forest.label = ['S', 'Y', 'Z'] ∧
        fs.splice .detours = .error (.temporaryRoot 'Y') ∧
        (SpliceError.temporaryRoot 'Y').message =
          "Unflattenable Forest: root rule 'Y' is temporary" := by
  have hinput : ['x', 'x'] ≠ [] := List.cons_ne_nil _ _
  have hconsistent : Grammar.detours.Consistent := Grammar.consistent_iff.2 ⟨by decide, by decide⟩
  have hpart : Grammar.detours.Derives 'S' ['x'] :=
    .terminal (show ⟨'S', 'x', false⟩ ∈ Grammar.detours.terminals by decide)
  have hderives : Grammar.detours.Derives 'Z' ['x', 'x'] :=
    .binary (show ⟨'Z', 'S', 'S', true⟩ ∈ Grammar.detours.binaries by decide) hpart hpart
  obtain ⟨fs, hfs, -, hroot, -⟩ := splice_parse_faults Grammar.detours hinput
  obtain ⟨root, hfind, hsplice, hmessage⟩ := hroot hconsistent 'Z' (by decide) hderives rfl
  have hlabels : fs.toForests.map Forest.label = ['S', 'Y', 'Z'] := by
    cases hfs
    rfl
  rw [hlabels] at hfind
  cases hfind
  refine ⟨hinput, hconsistent, hderives, fs, hfs, hlabels, hsplice, hmessage.trans ?_⟩
  decide +kernel

end ChartParsing
