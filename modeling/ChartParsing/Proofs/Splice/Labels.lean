import ChartParsing.Proofs.Forest.Trees
import ChartParsing.Proofs.Splice.Sharing

/-!
# The labels of spliced forests

Splicing leaves two kinds of forests: leaves that stand for the outputs of terminal rules, and
forests with keys that are not temporary. A temporary forest may give way to nothing at all, where
it has an alternative without children, and a forest above it is then left with less. If no forest
stands both for a leaf and for nodes, nothing is lost in this way: the leaves of the spliced forests
are the forests that are labelled with a value.

## Main definitions

* `SharedForests.Leaves`: what a node of spliced forests may be.

## Main results

* `nil_notMem_spliceAlternatives`: what takes the place of an alternative is not empty, if this is
  so for the children.
* `SharedForests.nil_notMem_replacements`: an unmixed forest does not give way to nothing.
* `SharedForests.splice_leaves_no_temporary`: the forests that splicing leaves.
-/

namespace ChartParsing

universe u v

variable {K : Type u} {V : Type v}

/-! ### Replacements that are not empty -/

/-- Where no alternative is empty, nothing empty takes the place of one, unless it does so for a
child. -/
theorem nil_notMem_spliceAlternatives {α : Type u} {alternatives : List (List (List (List α)))}
    (hne : [] ∉ alternatives)
    (h : ∀ children ∈ alternatives, ∀ options ∈ children, [] ∉ options) :
    [] ∉ spliceAlternatives alternatives := by
  intro hmem
  obtain ⟨children, hchildren, hchoice⟩ := List.mem_flatMap.1 hmem
  obtain ⟨lists, hlists, hflatten⟩ := List.mem_map.1 hchoice
  obtain ⟨options, rest, rfl⟩ := List.exists_cons_of_ne_nil (ne_of_mem_of_not_mem hchildren hne)
  obtain ⟨l, hl, _, -, rfl⟩ := mem_choices_cons.1 hlists
  have hnil : l = [] := List.flatten_eq_nil_iff.1 hflatten l List.mem_cons_self
  exact h _ hchildren options List.mem_cons_self (hnil ▸ hl)

namespace SharedForests

variable {fs : SharedForests K} {flag? : K → Option Bool} {nodeOf : Nat → Nat} {i : Nat}
  {n : ForestNode K}

theorem Unmixed.nil_notMem_alternatives (h : fs.Unmixed) (hi : i ∈ fs.objects)
    (hn : fs.graph.nodes[i]? = some n) (hleaf : ¬n.isLeaf) : [] ∉ n.alternatives := by
  obtain ⟨r, hr, hreach⟩ := hi
  intro hmem
  refine h r hr i hreach n hn ⟨hmem, ?_⟩
  simpa [ForestNode.isLeaf] using hleaf

/-- Below unmixed roots no alternative gives way to nothing, if none of the children does. -/
theorem Unmixed.nil_notMem_splicedAlternatives (h : fs.Unmixed) (hi : i ∈ fs.objects)
    (hn : fs.graph.nodes[i]? = some n) (hleaf : ¬n.isLeaf)
    (hchildren : ∀ c ∈ fs.graph.children i, [] ∉ fs.graph.replacements flag? nodeOf c) :
    [] ∉ fs.graph.splicedAlternatives flag? nodeOf n := by
  refine nil_notMem_spliceAlternatives ?_ ?_
  · intro hmem
    obtain ⟨children, hchildren, hmap⟩ := List.mem_map.1 hmem
    rw [List.map_eq_nil_iff] at hmap
    exact h.nil_notMem_alternatives hi hn hleaf (hmap ▸ hchildren)
  · intro _ hmem _ hoptions
    obtain ⟨children, halternative, rfl⟩ := List.mem_map.1 hmem
    obtain ⟨c, hc, rfl⟩ := List.mem_map.1 hoptions
    exact hchildren c (ForestGraph.mem_children hn halternative hc)

/-- Below unmixed roots no node gives way to nothing. -/
theorem Unmixed.nil_notMem_replacements (h : fs.Unmixed) (hi : i ∈ fs.objects) :
    [] ∉ fs.graph.replacements flag? nodeOf i := by
  induction i using Nat.strongRecOn with
  | ind i ih =>
    obtain ⟨n, hn⟩ := exists_node_of_mem_objects hi
    by_cases hway : n.GivesWay flag?
    · rw [ForestGraph.replacements_of_givesWay hn hway]
      refine h.nil_notMem_splicedAlternatives hi hn hway.1 ?_
      intro c hc
      exact ih c (ForestGraph.lt_of_mem_children hc) (mem_objects_of_mem_children hi hc)
    · rw [ForestGraph.replacements_of_not_givesWay hn hway]
      simp

/-- Below unmixed roots a node that is no leaf is spliced to alternatives with children. -/
theorem Unmixed.splicedAlternatives_ne_nil (h : fs.Unmixed) (hi : i ∈ fs.objects)
    (hn : fs.graph.nodes[i]? = some n) (hleaf : ¬n.isLeaf) :
    fs.graph.splicedAlternatives flag? nodeOf n ≠ [] ∧
      [] ∉ fs.graph.splicedAlternatives flag? nodeOf n := by
  constructor
  · refine ForestGraph.splicedAlternatives_ne_nil hn hleaf ?_
    intro c hc
    obtain ⟨n', hn'⟩ := ForestGraph.exists_child_of_mem_children hc
    exact ForestGraph.replacements_ne_nil hn'
  · refine h.nil_notMem_splicedAlternatives hi hn hleaf ?_
    intro c hc
    exact h.nil_notMem_replacements (mem_objects_of_mem_children hi hc)

/-! ### What splicing leaves -/

variable [DecidableEq K]

/-- The relation `fs.Leaves g n`: splicing the forests in `fs` with the grammar `g` may leave the
node `n`. -/
inductive Leaves (fs : SharedForests K) (g : Grammar K V) : ForestNode (Symbol K V) → Prop where
  /-- A leaf for the output of a terminal rule. -/
  | value {rule : TerminalRule K V} (mem : rule ∈ g.terminals) :
      Leaves fs g ⟨.value rule.output, [[]]⟩
  /-- A node for a forest that is no leaf, with a key that is not temporary. -/
  | rule {i : Nat} {n : ForestNode K} (alternatives : List (List Nat)) (mem : i ∈ fs.objects)
      (node : fs.graph.nodes[i]? = some n) (not_isLeaf : ¬n.isLeaf)
      (flag_eq : g.isTemporary? n.label = some false) :
      Leaves fs g ⟨.rule n.label, alternatives⟩

variable {t : SpliceTable K V} {flat : SharedForests (Symbol K V)}

theorem SplicedTo.exists_mem_kept (h : fs.SplicedTo t nodeOf flat)
    (hfault : t.firstFault? fs = none) {m : Nat} (hm : m ∈ flat.objects) :
    ∃ i ∈ fs.kept t.flag?, nodeOf i = m := by
  have hroots : ∀ r ∈ fs.roots, r ∈ fs.kept t.flag? := by
    intro r hr
    obtain ⟨n, hn⟩ := exists_node_of_mem_objects (mem_objects_of_mem_roots hr)
    have hflag := (firstFault?_eq_none_iff_objects.1 hfault).1 r hr n hn
    exact ⟨mem_objects_of_mem_roots hr, n, hn, fun hway => by cases hflag.symm.trans hway.2⟩
  rw [h.objects_eq hroots] at hm
  exact hm

/-- The key of a kept forest that is no leaf has rules, and they are not temporary. -/
theorem flag?_eq_some_false (hfault : t.firstFault? fs = none) (hi : i ∈ fs.objects)
    (hn : fs.graph.nodes[i]? = some n) (hleaf : ¬n.isLeaf) (hway : ¬n.GivesWay t.flag?) :
    t.flag? n.label = some false := by
  have hown := (firstFault?_eq_none_iff_objects.1 hfault).2 i hi n hn
  rw [SpliceTable.ownFault?, if_neg hleaf] at hown
  cases hflag : t.flag? n.label with
  | none => simp [hflag] at hown
  | some flag =>
    cases flag with
    | true => exact absurd ⟨hleaf, hflag⟩ hway
    | false => rfl

variable [DecidableEq V] {g : Grammar K V}

/-- **Splicing leaves no temporary rule.** If forests are spliced, every forest below the spliced
roots is a leaf for the output of a terminal rule, or it is labelled with a key that is not
temporary, of a forest below the roots that is no leaf. If moreover no forest below the roots has
both an alternative without children and one with children, a spliced forest that is labelled with a
key has alternatives, each of them with children, so the leaves are the forests that are labelled
with a value. -/
theorem splice_leaves_no_temporary (h : fs.splice g = .ok flat) :
    ∀ m ∈ flat.objects, ∃ n, flat.graph.nodes[m]? = some n ∧ fs.Leaves g n ∧
      (fs.Unmixed →
        (∀ key, n.label = .rule key → n.alternatives ≠ [] ∧ [] ∉ n.alternatives) ∧
        (n.isLeaf ↔ ∃ value, n.label = .value value)) := by
  intro m hm
  obtain ⟨t, ht, hflat⟩ := splice_eq_ok_iff.1 h
  obtain ⟨hfault, nodeOf, hspliced⟩ := exists_splicedTo hflat
  obtain ⟨i, ⟨hi, n, hn, hway⟩, rfl⟩ := hspliced.exists_mem_kept hfault hm
  by_cases hleaf : n.isLeaf
  · obtain ⟨value, hvalue, hnode⟩ := hspliced.getElem?_leaf i hi n hn hleaf
    rw [SpliceTable.output?_eq ht, Grammar.output?, Option.map_eq_some_iff] at hvalue
    obtain ⟨rule, hrule, rfl⟩ := hvalue
    refine ⟨_, hnode, .value (List.mem_of_find?_eq_some hrule), fun _ => ⟨by simp, ?_⟩⟩
    simp [ForestNode.isLeaf]
  · have hflag := flag?_eq_some_false hfault hi hn hleaf hway
    rw [SpliceTable.flag?_eq ht] at hflag
    refine ⟨_, hspliced.getElem?_node i hi n hn hleaf hway, .rule _ hi hn hleaf hflag,
      fun hunmixed => ?_⟩
    obtain ⟨hne, hnil⟩ : fs.graph.splicedAlternatives t.flag? nodeOf n ≠ [] ∧
        [] ∉ fs.graph.splicedAlternatives t.flag? nodeOf n :=
      hunmixed.splicedAlternatives_ne_nil hi hn hleaf
    obtain ⟨children, hchildren⟩ := List.exists_mem_of_ne_nil _ hne
    refine ⟨fun _ _ => ⟨hne, hnil⟩, ?_⟩
    simp only [ForestNode.isLeaf, List.all_eq_true, List.isEmpty_iff, reduceCtorEq, exists_false,
      iff_false]
    exact fun hall => hnil (hall children hchildren ▸ hchildren)

/-- Shared forests with the keys of `Grammar.pairs`: two temporary forests, one of which stands
below the other one and below the root, with two alternatives each. -/
def sharedNested : SharedForests Char :=
  .ofRoots (.ofNodes [⟨'a', [[]]⟩, ⟨'b', [[]]⟩, ⟨'T', [[0, 1], [1, 0]]⟩, ⟨'T', [[2, 1], [0, 2]]⟩,
    ⟨'S', [[2, 3], [3, 0]]⟩]) [4]

private theorem unmixed_sharedNested : sharedNested.Unmixed := by
  have hnodes : ∀ n ∈ sharedNested.graph.nodes,
      ¬([] ∈ n.alternatives ∧ ∃ children ∈ n.alternatives, children ≠ []) := by decide
  intro r _ i _ n hn
  exact hnodes n (Array.mem_of_getElem? hn)

/-- Neither of the temporary forests is left, and the leaves are labelled with values. -/
theorem splice_leaves_no_temporary_sharedNested :
    sharedNested.Unmixed ∧ ∃ flat, sharedNested.splice .pairs = .ok flat ∧
      ∀ m ∈ flat.objects, ∃ n, flat.graph.nodes[m]? = some n ∧ n.label ≠ .rule 'T' ∧
        (n.isLeaf ↔ ∃ value, n.label = .value value) := by
  obtain ⟨flat, hflat⟩ : ∃ flat, sharedNested.splice .pairs = .ok flat := ⟨_, rfl⟩
  refine ⟨unmixed_sharedNested, flat, hflat, fun m hm => ?_⟩
  obtain ⟨n, hn, hleaves, hlabels⟩ := splice_leaves_no_temporary hflat m hm
  refine ⟨n, hn, ?_, (hlabels unmixed_sharedNested).2⟩
  have htemporary : Grammar.pairs.isTemporary? 'T' = some true := by decide
  cases hleaves with
  | value _ => simp
  | rule _ _ _ _ flag_eq =>
    intro hlabel
    rw [Symbol.rule.inj hlabel, htemporary] at flag_eq
    cases flag_eq

end SharedForests

end ChartParsing
