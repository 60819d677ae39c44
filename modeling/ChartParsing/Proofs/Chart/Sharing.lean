import ChartParsing.Proofs.Chart.Occurrences
import Mathlib.Algebra.BigOperators.Intervals

/-!
# Shared forests

The forests of a parse share all that can be shared. Their nodes are in bijection with the items
that can be reached from the roots, since a node is built for an item at most once, and there is one
item for a key and a span. So there are no more nodes than keys of rules for each span.

## Main definitions

* `Span.allWithin`, `Grammar.ruleKeys`: the spans of an input, and the keys of the rules.

## Main results

* `BuiltForests.CopyOf.bijOn_objects`: nodes below the roots and items below them are in bijection.
* `Chart.size_items_le`: how many items a chart has.
* `Parser.parse_shares_maximally`: the nodes of a parse are shared wherever they can be.
-/

namespace ChartParsing

universe u v

variable {K : Type u} {V : Type v}

/-! ### Nodes and items -/

namespace BuiltForests.CopyOf

variable {c : Chart K} {b : BuiltForests K}

theorem children_eq (h : CopyOf c b) {i m : Nat} (hm : b.node? i = some m) :
    b.graph.children m = (c.parts i).filterMap b.node? := by
  obtain ⟨item, hitem, -, hnode⟩ := h.node_eq i m hm
  rw [ForestGraph.children, hnode, Chart.parts_eq_children hitem, ForestNode.children,
    List.filterMap_flatten]
  rfl

/-- A node that can be reached from the node of an item is the node of an item that can be reached
from that item. -/
theorem exists_reaches_parts (h : CopyOf c b) {m m' : Nat} (hreach : Reaches b.graph.children m m')
    {i : Nat} (hm : b.node? i = some m) : ∃ i', Reaches c.parts i i' ∧ b.node? i' = some m' := by
  induction hreach generalizing i with
  | refl _ => exact ⟨i, .refl i, hm⟩
  | step edge _ ih =>
    rw [h.children_eq hm] at edge
    obtain ⟨j, hj, hnode⟩ := List.mem_filterMap.1 edge
    obtain ⟨i', hpath, hm'⟩ := ih hnode
    exact ⟨i', .step hj hpath, hm'⟩

/-- An item that can be reached from an item with a node has a node that can be reached from that
node. -/
theorem exists_reaches_children (h : CopyOf c b) {i i' : Nat} (hreach : Reaches c.parts i i')
    {m : Nat} (hm : b.node? i = some m) :
    ∃ m', b.node? i' = some m' ∧ Reaches b.graph.children m m' := by
  induction hreach generalizing m with
  | refl _ => exact ⟨m, hm, .refl m⟩
  | step edge _ ih =>
    obtain ⟨item, hitem, hparts, -⟩ := h.node_eq _ m hm
    obtain ⟨n, hn⟩ := Option.isSome_iff_exists.1
      (hparts _ (Chart.parts_eq_children hitem ▸ edge))
    obtain ⟨m', hm', hpath⟩ := ih hn
    refine ⟨m', hm', .step ?_ hpath⟩
    rw [h.children_eq hm]
    exact List.mem_filterMap.2 ⟨_, edge, hn⟩

/-- If the roots are the nodes of some items, the nodes below them are in bijection with the items
below these. -/
theorem bijOn_objects (h : CopyOf c b) {fs : SharedForests K} (hgraph : fs.graph = b.graph)
    {numbers : List Nat} (hroots : fs.roots.map some = numbers.map b.node?) :
    ∃ itemOf, (∀ m ∈ fs.objects, b.node? (itemOf m) = some m) ∧
      Set.BijOn itemOf fs.objects {i | ∃ r ∈ numbers, Reaches c.parts r i} := by
  have hitems : ∀ m ∈ fs.objects,
      ∃ i, (∃ r ∈ numbers, Reaches c.parts r i) ∧ b.node? i = some m := by
    rintro m ⟨r, hr, hreach⟩
    obtain ⟨i, hi, hnode⟩ := List.mem_map.1 (hroots ▸ List.mem_map_of_mem hr)
    rw [hgraph] at hreach
    obtain ⟨i', hpath, hm⟩ := h.exists_reaches_parts hreach hnode
    exact ⟨i', ⟨i, hi, hpath⟩, hm⟩
  choose! itemOf hreached hnode using hitems
  refine ⟨itemOf, hnode, hreached, fun m hm m' hm' heq => ?_, ?_⟩
  · exact Option.some_inj.1 ((hnode m hm).symm.trans (heq ▸ hnode m' hm'))
  · rintro i ⟨j, hj, hreach⟩
    obtain ⟨r, hr, hroot⟩ := List.mem_map.1 (hroots ▸ List.mem_map_of_mem (f := b.node?) hj)
    obtain ⟨m, hm, hpath⟩ := h.exists_reaches_children hreach hroot.symm
    rw [← hgraph] at hpath
    have hobject : m ∈ fs.objects := ⟨r, hr, hpath⟩
    exact ⟨m, hobject, h.node?_inj _ _ m (hnode m hobject) hm⟩

end BuiltForests.CopyOf

/-! ### Spans and keys of rules -/

namespace Span

/-- The spans of an input: a stop, and a start before it. -/
def allWithin (inputLength : Nat) : Finset Span :=
  ((Finset.range (inputLength + 1)).sigma fun stop => Finset.range stop).image fun place =>
    ⟨place.1 - place.2, place.2⟩

private theorem Within.mem_allWithin {s : Span} {inputLength : Nat} (h : s.Within inputLength) :
    s ∈ allWithin inputLength := by
  have hpos := h.length_pos
  have hstop := h.stop_le
  rw [stop] at hstop
  refine Finset.mem_image.2 ⟨⟨s.stop, s.start⟩, ?_, by simp [stop]⟩
  simp only [Finset.mem_sigma, Finset.mem_range, stop]
  omega

private theorem card_allWithin_le (inputLength : Nat) :
    (allWithin inputLength).card ≤ inputLength * (inputLength + 1) / 2 := by
  refine Finset.card_image_le.trans ?_
  rw [Finset.card_sigma]
  simp only [Finset.card_range]
  rw [Finset.sum_range_id, Nat.add_sub_cancel, Nat.mul_comm]

end Span

namespace Grammar

variable [DecidableEq K]

/-- The keys that have a rule, each once. -/
def ruleKeys (g : Grammar K V) : List K :=
  distinct (g.terminals.map TerminalRule.key ++ g.binaries.map BinaryRule.key)

private theorem Derives.mem_ruleKeys {g : Grammar K V} {key : K} {values : List V}
    (h : g.Derives key values) : key ∈ g.ruleKeys := by
  rw [ruleKeys, mem_distinct, List.mem_append]
  cases h with
  | terminal mem => exact .inl (List.mem_map_of_mem mem)
  | binary mem _ _ => exact .inr (List.mem_map_of_mem mem)

end Grammar

namespace Chart

variable [DecidableEq K] [DecidableEq V]

/-- A chart has no more items than keys of rules for each span of the input. -/
theorem size_items_le (g : Grammar K V) (input : List V) :
    (ofInput (.ofGrammar g) input).items.size ≤
      g.ruleKeys.length * (input.length * (input.length + 1) / 2) := by
  set c := ofInput (.ofGrammar g) input
  have hlists : ∀ i : Fin c.items.size, c.Lists c.items[i].span c.items[i].key i := fun i =>
    lists_of_item? (Array.getElem?_eq_getElem i.2)
  -- An item is told by its key and its span.
  have hinto : ∀ i : Fin c.items.size,
      (c.items[i].key, c.items[i].span) ∈ g.ruleKeys.toFinset ×ˢ Span.allWithin input.length :=
    fun i => by
      have hwithin := (hlists i).within
      have hderives := (exists_lists_iff_derives hwithin).1 ⟨i, hlists i⟩
      exact Finset.mem_product.2 ⟨List.mem_toFinset.2 hderives.mem_ruleKeys, hwithin.mem_allWithin⟩
  have hinj : ∀ i j : Fin c.items.size,
      (c.items[i].key, c.items[i].span) = (c.items[j].key, c.items[j].span) → i = j :=
    fun i j heq => by
      obtain ⟨hkey, hspan⟩ := Prod.mk.inj heq
      have h := hlists i
      rw [hkey, hspan] at h
      exact Fin.ext (h.number_eq (hlists j))
  calc c.items.size
      = (Finset.univ : Finset (Fin c.items.size)).card := (Finset.card_fin _).symm
    _ ≤ (g.ruleKeys.toFinset ×ˢ Span.allWithin input.length).card :=
      Finset.card_le_card_of_injOn _ (fun i _ => hinto i) fun i _ j _ => hinj i j
    _ = g.ruleKeys.length * (Span.allWithin input.length).card := by
      rw [Finset.card_product, Grammar.ruleKeys, List.toFinset_card_of_nodup (nodup_distinct _)]
    _ ≤ _ := Nat.mul_le_mul_left _ (Span.card_allWithin_le _)

end Chart

namespace Parser

variable [DecidableEq K] [DecidableEq V]

/-- The forests of a parse are built by demands for the roots of the chart. -/
theorem exists_demands_roots (g : Grammar K V) (input : List V) :
    ∃ b, (Chart.ofInput (.ofGrammar g) input).Demands
        (.empty (Chart.ofInput (.ofGrammar g) input).items.size)
        ((ofGrammar g).roots (.ofInput (.ofGrammar g) input)) b
        ((ofGrammar g).forests (.ofInput (.ofGrammar g) input)).roots ∧
      BuiltForests.CopyOf (.ofInput (.ofGrammar g) input) b ∧
      ((ofGrammar g).forests (.ofInput (.ofGrammar g) input)).graph = b.graph ∧
      ((ofGrammar g).forests (.ofInput (.ofGrammar g) input)).roots.map some =
        ((ofGrammar g).roots (.ofInput (.ofGrammar g) input)).map b.node? := by
  have hlt : ∀ i ∈ (ofGrammar g).roots (.ofInput (.ofGrammar g) input),
      i < (Chart.ofInput (.ofGrammar g) input).items.size := fun i hi => by
    obtain ⟨key, -, hlists⟩ := mem_roots.1 hi
    exact hlists.lt_size
  obtain ⟨b, roots, hdemands, hroots, hadds⟩ := Chart.exists_demands
    (Chart.partsBelow_ofInput g input) (BuiltForests.CopyOf.empty _) hlt
  have hfilter : roots.filter (· < b.graph.size) = roots := List.filter_eq_self.2 fun r hr => by
    obtain ⟨i, -, hnode⟩ := List.mem_map.1 (hroots ▸ List.mem_map_of_mem hr)
    exact decide_eq_true (hadds.valid.lt_size hnode)
  have hforests : (ofGrammar g).forests (.ofInput (.ofGrammar g) input) =
      .ofRoots b.graph roots := by
    rw [forests, Chart.forestsOf, hdemands.demandEach_eq]
  have hforestRoots : ((ofGrammar g).forests (.ofInput (.ofGrammar g) input)).roots = roots := by
    rw [hforests]
    exact hfilter
  refine ⟨b, hforestRoots ▸ hdemands, hadds.valid, ?_, hforestRoots ▸ hroots⟩
  rw [hforests]
  rfl

/-- **The forests of a parse share all that can be shared.** The nodes that can be reached from the
roots are in bijection with the items that can be reached from the roots of the chart: a node
belongs to the item that it was built for. They are the nodes that occur below the roots, each over
the span of its item. Two occurrences are of the same node exactly when they have the same label
over the same span, so there are no more nodes than keys of rules for each span. -/
theorem parse_shares_maximally (g : Grammar K V) {input : List V} (hinput : input ≠ []) :
    ∃ c fs b itemOf, (ofGrammar g).chart input = .ok c ∧ (ofGrammar g).parse input = .ok fs ∧
      c.Demands (.empty c.items.size) ((ofGrammar g).roots c) b fs.roots ∧ fs.graph = b.graph ∧
      (∀ m ∈ fs.objects, b.node? (itemOf m) = some m) ∧
      Set.BijOn itemOf fs.objects {i | ∃ r ∈ (ofGrammar g).roots c, Reaches c.parts r i} ∧
      (∀ m, m ∈ fs.objects ↔ ∃ s, fs.Occurs m s) ∧
      (∀ m s, fs.Occurs m s → ∃ item, c.item? (itemOf m) = some item ∧
        fs.graph.label? m = some item.key ∧ item.span = s) ∧
      (∀ m m' s s', fs.Occurs m s → fs.Occurs m' s' →
        (m = m' ↔ fs.graph.label? m = fs.graph.label? m' ∧ s = s')) ∧
      fs.objects.encard ≤
        (g.ruleKeys.length * (input.length * (input.length + 1) / 2) : Nat) := by
  obtain ⟨b, hdemands, hb, hgraph, hroots⟩ := exists_demands_roots g input
  obtain ⟨itemOf, hnode, hbij⟩ := hb.bijOn_objects hgraph hroots
  refine ⟨.ofInput (.ofGrammar g) input, _, b, itemOf, chart_of_ne_nil _ hinput,
    parse_of_ne_nil g hinput, hdemands, hgraph, hnode, hbij,
    fun m => Chart.mem_objects_iff hroots hb hgraph, fun m s h => ?_,
    fun m m' s s' => Chart.eq_iff_of_occurs hroots hb hgraph, ?_⟩
  · obtain ⟨i, item, hi, hitem, hlabel, hspan⟩ := Chart.exists_item_of_occurs hroots hb hgraph h
    cases hb.node?_inj _ _ m hi (hnode m h.mem_objects)
    exact ⟨item, hitem, hlabel, hspan⟩
  · have hlt : Set.MapsTo itemOf
        ((ofGrammar g).forests (.ofInput (.ofGrammar g) input)).objects
        (Finset.range (Chart.ofInput (.ofGrammar g) input).items.size) := fun m hm => by
      obtain ⟨item, hitem, -⟩ := hb.node_eq _ m (hnode m hm)
      exact Finset.mem_coe.2 (Finset.mem_range.2 (Array.getElem?_eq_some_iff.1 hitem).1)
    refine (Set.encard_le_encard_of_injOn hlt hbij.injOn).trans ?_
    rw [Set.encard_coe_eq_coe_finsetCard, Finset.card_range]
    exact Nat.cast_le.2 (Chart.size_items_le g input)

/-- In `abab` the two halves are different nodes, though they stand for equal forests. Over the
second half there is no other node with that label. -/
theorem parse_shares_maximally_pairs :
    ['a', 'b', 'a', 'b'] ≠ [] ∧ ∃ fs, (ofGrammar .pairs).parse ['a', 'b', 'a', 'b'] = .ok fs ∧
      fs.graph.forestAt? 6 = fs.graph.forestAt? 7 ∧
      fs.Occurs 6 ⟨2, 0⟩ ∧ fs.Occurs 7 ⟨2, 2⟩ ∧
      (∀ m, fs.Occurs m ⟨2, 2⟩ → fs.graph.label? m = fs.graph.label? 7 → m = 7) ∧
      fs.objects.encard ≤ (4 * (4 * (4 + 1) / 2) : Nat) := by
  have hinput : ['a', 'b', 'a', 'b'] ≠ [] := List.cons_ne_nil _ _
  obtain ⟨_, fs, _, _, -, hfs, -, -, -, -, -, -, hshared, hcard⟩ :=
    parse_shares_maximally Grammar.pairs hinput
  have hroot : 8 ∈ fs.roots ∧ fs.graph.nodes[8]? = some ⟨'S', [[0, 5], [6, 7]]⟩ := by
    cases hfs
    decide
  have hhalves : fs.graph.forestAt? 6 = some (.node 'S' [[.node 'a' [[]], .node 'b' [[]]]]) ∧
      fs.graph.forestAt? 7 = some (.node 'S' [[.node 'a' [[]], .node 'b' [[]]]]) := by
    cases hfs
    exact ⟨rfl, rfl⟩
  have hwhole : fs.graph.Covers 8 4 := by
    cases hfs
    exact ⟨_, rfl, _, List.mem_cons_self, rfl⟩
  have hleft : fs.graph.Covers 6 2 := ⟨_, hhalves.1, _, List.mem_cons_self, rfl⟩
  have hright : fs.graph.Covers 7 2 := ⟨_, hhalves.2, _, List.mem_cons_self, rfl⟩
  have hocc : fs.Occurs 8 ⟨4, 0⟩ := .root hroot.1 hwhole
  have hmem : [] ++ 6 :: [7] ∈ [[0, 5], [6, 7]] ∧ [6] ++ 7 :: [] ∈ [[0, 5], [6, 7]] := by decide
  have hleftOcc : fs.Occurs 6 ⟨2, 0⟩ := hocc.child hroot.2 hmem.1 .nil hleft
  have hrightOcc : fs.Occurs 7 ⟨2, 2⟩ := hocc.child hroot.2 hmem.2 (.cons hleft .nil) hright
  have hkeys : Grammar.pairs.ruleKeys.length = 4 := by decide
  rw [hkeys] at hcard
  exact ⟨hinput, fs, hfs, hhalves.1.trans hhalves.2.symm, hleftOcc, hrightOcc,
    fun m h hlabel => (hshared m 7 _ _ h hrightOcc).2 ⟨hlabel, rfl⟩, hcard⟩

end Parser

end ChartParsing
