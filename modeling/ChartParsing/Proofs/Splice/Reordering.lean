import ChartParsing.Proofs.Forest.Permutations
import ChartParsing.Proofs.Grammar.Reordering
import ChartParsing.Proofs.Splice.Parses

/-!
# Parsing with rules in another order

The order of the rules decides in which order the keys of a cell are found. So items get other
numbers, joints and roots come in another order, and the alternatives of a forest with them. But the
forests of a parse stand for the derivations from the start keys, each once, and these are the same:
the two parses have the same trees for each start key, in some order, and so have the spliced ones.

## Main definitions

* `SharedForests.SameTreesAt`: two roots stand for the same trees, in some order.

## Main results

* `Parser.perm_trees_of_label_eq`, `Parser.census_eq_of_label_eq`: forests of two parses with the
  same label.
* `Parser.census?_forests_eq`: the census of all forests.
* `Parser.sameTreesAt_splice`: the spliced forests.
* `Parser.parse_ignores_order`: what two parses have in common.
-/

namespace ChartParsing

universe u v

open scoped List

variable {K : Type u} {V : Type v}

/-- The roots at the places `i` and `i'` stand for the same trees, each as often, in some order. -/
def SharedForests.SameTreesAt (fs fs' : SharedForests K) (i i' : Nat) : Prop :=
  ∃ ts ts', fs.trees[i]? = some ts ∧ fs'.trees[i']? = some ts' ∧ ts ~ ts'

theorem SharedForests.SameTreesAt.of_perm {fs fs' : SharedForests K} {i i' : Nat} {f f' : Forest K}
    (hf : fs.toForests[i]? = some f) (hf' : fs'.toForests[i']? = some f')
    (h : f.trees ~ f'.trees) : fs.SameTreesAt fs' i i' :=
  ⟨f.trees, f'.trees, by rw [trees, List.getElem?_map, hf]; rfl,
    by rw [trees, List.getElem?_map, hf']; rfl, h⟩

/-- An item without joints has one alternative. -/
theorem Chart.singleLeaves_ofRoots_graph {c : Chart K} (hc : c.PartsBelow) (numbers : List Nat) :
    (SharedForests.ofRoots c.graph numbers).SingleLeaves := by
  rintro r - i - n hn hleaf
  obtain ⟨item, -, rfl⟩ := Option.map_eq_some_iff.1 ((hc.getElem?_nodes_graph i).symm.trans hn)
  cases hjoints : item.joints with
  | nil => simp [Item.node, Item.isTerminal, hjoints]
  | cons joint joints => simp [ForestNode.isLeaf, Item.node, Item.isTerminal, hjoints] at hleaf

namespace Parser

variable [DecidableEq K] [DecidableEq V] {g g' : Grammar K V} {input : List V}

theorem singleLeaves_of_mem_forests {f : Forest K}
    (hf : f ∈ ((ofGrammar g).forests (.ofInput (.ofGrammar g) input)).toForests) :
    f.SingleLeaves := by
  rw [toForests_forests, ← SharedForests.toForests_ofRoots] at hf
  obtain ⟨r, hr, hforest⟩ := SharedForests.mem_toForests.1 hf
  exact (Chart.singleLeaves_ofRoots_graph (Chart.partsBelow_ofInput g input) _).of_mem_roots hr
    hforest

/-! ### Answers of two parsers -/

theorem recognize_eq_of_sameRules (h : g.SameRules g') (hinput : input ≠ []) :
    (ofGrammar g).recognize input = (ofGrammar g').recognize input := by
  have htrue : (ofGrammar g).recognize input = .ok true ↔
      (ofGrammar g').recognize input = .ok true := by
    simp only [recognize_eq_true_iff, h.mem_starts, h.derives_iff]
  rw [recognize_of_ne_nil _ hinput, recognize_of_ne_nil _ hinput] at htrue ⊢
  rw [Except.ok.injEq, Except.ok.injEq] at htrue
  rw [Bool.eq_iff_iff.2 htrue]

theorem perm_labels_forests (h : g.SameRules g') (hinput : input ≠ []) :
    ((ofGrammar g).forests (.ofInput (.ofGrammar g) input)).toForests.map Forest.label ~
      ((ofGrammar g').forests (.ofInput (.ofGrammar g') input)).toForests.map Forest.label := by
  refine (List.perm_ext_iff_of_nodup (nodup_labels_forests g hinput)
    (nodup_labels_forests g' hinput)).2 fun key => ?_
  rw [mem_labels_forests hinput, mem_labels_forests hinput, h.mem_starts, h.derives_iff]

section SameLabel

variable {f f' : Forest K}
  (hf : f ∈ ((ofGrammar g).forests (.ofInput (.ofGrammar g) input)).toForests)
  (hf' : f' ∈ ((ofGrammar g').forests (.ofInput (.ofGrammar g') input)).toForests)

include hf hf'

/-- Forests for the same start key stand for the same derivations. -/
theorem perm_trees_of_label_eq (h : g.SameRules g') (hlabel : f.label = f'.label) :
    f.trees ~ f'.trees := by
  obtain ⟨key, -, henum⟩ := exists_enumerates_of_mem_forests hf
  obtain ⟨key', -, henum'⟩ := exists_enumerates_of_mem_forests hf'
  refine (List.perm_ext_iff_of_nodup henum.nodup_trees henum'.nodup_trees).2 fun t => ?_
  rw [henum.mem_trees, henum'.mem_trees, h.yields_iff, ← henum.label_eq, hlabel, henum'.label_eq]

theorem census_eq_of_label_eq (h : g.SameRules g') (hlabel : f.label = f'.label) :
    f.census = f'.census :=
  Forest.census_eq_of_perm (singleLeaves_of_mem_forests hf) (singleLeaves_of_mem_forests hf')
    (perm_trees_of_label_eq hf hf' h hlabel)

end SameLabel

/-- The census of all forests does not depend on the order of the rules. -/
theorem census?_forests_eq (h : g.SameRules g') (hinput : input ≠ []) :
    ((ofGrammar g).forests (.ofInput (.ofGrammar g) input)).census? =
      ((ofGrammar g').forests (.ofInput (.ofGrammar g') input)).census? := by
  rw [SharedForests.census?_eq, SharedForests.census?_eq]
  exact Census.choice?_eq_of_perm (perm_map_of_perm_map (perm_labels_forests h hinput)
    fun f hf f' hf' => census_eq_of_label_eq hf hf' h)

/-! ### Spliced forests -/

theorem exists_splice_forests_eq_ok_iff_of_sameRules (h : g.SameRules g') (hinput : input ≠ []) :
    (∃ flat, ((ofGrammar g).forests (.ofInput (.ofGrammar g) input)).splice g = .ok flat) ↔
      ∃ flat, ((ofGrammar g').forests (.ofInput (.ofGrammar g') input)).splice g' = .ok flat := by
  rw [exists_splice_forests_eq_ok_iff g hinput, exists_splice_forests_eq_ok_iff g' hinput,
    ← h.consistent_iff]
  refine and_congr_right fun hconsistent => ?_
  simp only [h.mem_starts, h.derives_iff, h.isTemporary?_eq hconsistent]

/-- The spliced forests in the places of forests for the same start key stand for the same trees. -/
theorem sameTreesAt_splice (h : g.SameRules g') {flat flat' : SharedForests (Symbol K V)}
    (hflat : ((ofGrammar g).forests (.ofInput (.ofGrammar g) input)).splice g = .ok flat)
    (hflat' : ((ofGrammar g').forests (.ofInput (.ofGrammar g') input)).splice g' = .ok flat')
    {i i' : Nat} {f f' : Forest K}
    (hf : ((ofGrammar g).forests (.ofInput (.ofGrammar g) input)).toForests[i]? = some f)
    (hf' : ((ofGrammar g').forests (.ofInput (.ofGrammar g') input)).toForests[i']? = some f')
    (hlabel : f.label = f'.label) : flat.SameTreesAt flat' i i' := by
  obtain ⟨t, ht, -⟩ := SharedForests.splice_eq_ok_iff.1 hflat
  have hconsistent := SpliceTable.exists_ofGrammar_eq_ok_iff.1 ⟨t, ht⟩
  have hperm := perm_trees_of_label_eq (List.mem_of_getElem? hf) (List.mem_of_getElem? hf') h hlabel
  obtain ⟨s, hs, hsplice⟩ :=
    exists_of_forall₂_of_getElem? (SharedForests.forall₂_perm_trees_splice hflat) hf
  obtain ⟨s', hs', hsplice'⟩ :=
    exists_of_forall₂_of_getElem? (SharedForests.forall₂_perm_trees_splice hflat') hf'
  refine .of_perm hs hs' ((List.map_perm_map_iff (Option.some_injective _)).1 ?_)
  calc s.trees.map some ~ f.trees.map (Tree.splice? g) := hsplice
    _ ~ f'.trees.map (Tree.splice? g) := hperm.map _
    _ = f'.trees.map (Tree.splice? g') := by rw [h.splice?_eq hconsistent]
    _ ~ s'.trees.map some := hsplice'.symm

/-- **The order of rules does not matter.** Let two grammars be made of the same rules and start
keys, listed in different orders. For every input that is not empty they give the same answer
whether it can be derived, and forests for the same start keys, one for each. Forests for the same
start key stand for the same trees up to their order and have the same census, and all forests
together have the same census. Splicing succeeds for both or for neither, and then what takes the
place of the two forests for a start key stands for the same trees, too. -/
theorem parse_ignores_order (h : g.Reordered g') (hinput : input ≠ []) :
    (ofGrammar g).recognize input = (ofGrammar g').recognize input ∧
    ∃ fs fs', (ofGrammar g).parse input = .ok fs ∧ (ofGrammar g').parse input = .ok fs' ∧
      (fs.toForests.map Forest.label).Nodup ∧
      fs.toForests.map Forest.label ~ fs'.toForests.map Forest.label ∧
      fs.census? = fs'.census? ∧
      ((∃ flat, fs.splice g = .ok flat) ↔ ∃ flat, fs'.splice g' = .ok flat) ∧
      ∀ i i' key, (fs.toForests.map Forest.label)[i]? = some key →
        (fs'.toForests.map Forest.label)[i']? = some key →
        fs.SameTreesAt fs' i i' ∧
        (∃ c, fs.censuses[i]? = some c ∧ fs'.censuses[i']? = some c) ∧
        ∀ flat flat', fs.splice g = .ok flat → fs'.splice g' = .ok flat' →
          flat.SameTreesAt flat' i i' := by
  have hrules := h.sameRules
  refine ⟨recognize_eq_of_sameRules hrules hinput, _, _, parse_of_ne_nil g hinput,
    parse_of_ne_nil g' hinput, nodup_labels_forests g hinput, perm_labels_forests hrules hinput,
    census?_forests_eq hrules hinput, exists_splice_forests_eq_ok_iff_of_sameRules hrules hinput,
    fun i i' key hi hi' => ?_⟩
  rw [List.getElem?_map, Option.map_eq_some_iff] at hi hi'
  obtain ⟨f, hf, hkey⟩ := hi
  obtain ⟨f', hf', hkey'⟩ := hi'
  have hmem := List.mem_of_getElem? hf
  have hmem' := List.mem_of_getElem? hf'
  have hlabel : f.label = f'.label := hkey.trans hkey'.symm
  refine ⟨.of_perm hf hf' (perm_trees_of_label_eq hmem hmem' hrules hlabel),
    ⟨f.census, ?_, ?_⟩, fun flat flat' hflat hflat' =>
      sameTreesAt_splice hrules hflat hflat' hf hf' hlabel⟩
  · rw [SharedForests.censuses_eq, List.getElem?_map, hf, Option.map_some]
  · rw [SharedForests.censuses_eq, List.getElem?_map, hf', Option.map_some,
      census_eq_of_label_eq hmem hmem' hrules hlabel]

end Parser

/-- A grammar with two start keys for three values, and two derivations for the first of them. -/
def Grammar.forked : Grammar Char Char :=
  .ofRules [⟨'A', 'x', false⟩, ⟨'B', 'x', false⟩]
    [⟨'S', 'A', 'T', false⟩, ⟨'S', 'B', 'T', false⟩, ⟨'R', 'B', 'T', false⟩,
      ⟨'T', 'A', 'B', true⟩] ['S', 'R']

/-- The same grammar, listed backwards. -/
def Grammar.forkedBackwards : Grammar Char Char :=
  .ofRules [⟨'B', 'x', false⟩, ⟨'A', 'x', false⟩]
    [⟨'T', 'A', 'B', true⟩, ⟨'R', 'B', 'T', false⟩, ⟨'S', 'B', 'T', false⟩,
      ⟨'S', 'A', 'T', false⟩] ['R', 'S']

/-- The forest for `S` comes first or last, and its two trees come in different orders, which are
spliced all the same. -/
theorem Parser.parse_ignores_order_forked :
    Grammar.forked.Reordered .forkedBackwards ∧ ['x', 'x', 'x'] ≠ [] ∧
      ∃ fs fs' flat flat', (ofGrammar .forked).parse ['x', 'x', 'x'] = .ok fs ∧
        (ofGrammar .forkedBackwards).parse ['x', 'x', 'x'] = .ok fs' ∧
        fs.toForests.map Forest.label = ['S', 'R'] ∧
        fs'.toForests.map Forest.label = ['R', 'S'] ∧
        fs.trees[0]? = some
          [.node 'S' [.leaf 'A', .node 'T' [.leaf 'A', .leaf 'B']],
            .node 'S' [.leaf 'B', .node 'T' [.leaf 'A', .leaf 'B']]] ∧
        fs'.trees[1]? = some
          [.node 'S' [.leaf 'B', .node 'T' [.leaf 'A', .leaf 'B']],
            .node 'S' [.leaf 'A', .node 'T' [.leaf 'A', .leaf 'B']]] ∧
        fs.SameTreesAt fs' 0 1 ∧ fs.splice .forked = .ok flat ∧
        fs'.splice .forkedBackwards = .ok flat' ∧ flat.SameTreesAt flat' 0 1 := by
  have hreordered : Grammar.forked.Reordered .forkedBackwards :=
    .ofRules (by decide) (by decide) (by decide)
  have hinput : ['x', 'x', 'x'] ≠ [] := List.cons_ne_nil _ _
  obtain ⟨-, fs, fs', hfs, hfs', -, -, -, -, hforests⟩ := parse_ignores_order hreordered hinput
  obtain ⟨flat, hflat⟩ : ∃ flat, fs.splice .forked = .ok flat := by
    cases hfs
    exact ⟨_, rfl⟩
  obtain ⟨flat', hflat'⟩ : ∃ flat', fs'.splice .forkedBackwards = .ok flat' := by
    cases hfs'
    exact ⟨_, rfl⟩
  have hlabels : fs.toForests.map Forest.label = ['S', 'R'] := by
    cases hfs
    rfl
  have hlabels' : fs'.toForests.map Forest.label = ['R', 'S'] := by
    cases hfs'
    rfl
  obtain ⟨htrees, -, hspliced⟩ := hforests 0 1 'S' (by rw [hlabels]; rfl) (by rw [hlabels']; rfl)
  refine ⟨hreordered, hinput, fs, fs', flat, flat', hfs, hfs', hlabels, hlabels', ?_, ?_, htrees,
    hflat, hflat', hspliced flat flat' hflat hflat'⟩
  · cases hfs
    rfl
  · cases hfs'
    rfl

end ChartParsing
