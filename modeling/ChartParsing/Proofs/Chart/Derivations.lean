import ChartParsing.Proofs.Chart.Joints
import ChartParsing.Proofs.Chart.Membership
import ChartParsing.Proofs.Forest.Trees

/-!
# Forests hold all derivations

The forest of an item stands for the derivations of the values over its span from its key, each of
them once. The proof is by induction on the length of the span. A derivation determines where it
divides the span and the keys of its two parts, hence the joint that it comes from; and a joint is
recorded once.

## Main definitions

* `Grammar.Enumerates`: the trees of a forest are the derivations, each once.

## Main results

* `Chart.Lists.exists_enumerates`: the forest of an item.
* `Parser.parse_enumerates`: the forests of a parse.
-/

namespace ChartParsing

universe u v

variable {K : Type u} {V : Type v}

/-- The trees of a forest are the derivations of `values` from `key`, each once. -/
structure Grammar.Enumerates (g : Grammar K V) (key : K) (values : List V) (f : Forest K) :
    Prop where
  /-- The label is the key. -/
  label_eq : f.label = key
  /-- No tree is repeated. -/
  nodup_trees : f.trees.Nodup
  /-- The trees are the derivations. -/
  mem_trees : ∀ t, t ∈ f.trees ↔ t.key = key ∧ g.Yields t values

namespace Grammar

variable {g : Grammar K V}

theorem Yields.length_eq {t : Tree K} {values values' : List V} (h : g.Yields t values)
    (h' : g.Yields t values') : values.length = values'.length :=
  h.length_frontier.symm.trans h'.length_frontier

end Grammar

namespace Chart

variable [DecidableEq K] [DecidableEq V] {g : Grammar K V} {input : List V}

theorem Lists.exists_terminal_of_length_eq_one {s : Span} {key : K} {number : Nat}
    (h : (ofInput (.ofGrammar g) input).Lists s key number) (hone : s.length = 1) :
    ∃ rule ∈ g.terminals, rule.key = key ∧ s.values input = [rule.output] := by
  have hstop := h.within.stop_le
  rw [Span.stop] at hstop
  have hvalue := List.getElem?_eq_getElem (show s.start < input.length by omega)
  have hderives := (exists_lists_iff_derives h.within).1 ⟨number, h⟩
  rw [Span.values_of_length_eq_one hone hvalue] at hderives ⊢
  obtain ⟨rule, hrule, houtput, hkey⟩ := Grammar.derives_singleton_iff.1 hderives
  exact ⟨rule, hrule, hkey, by rw [houtput]⟩

private theorem Lists.exists_enumerates_of_length_eq_one {s : Span} {key : K} {number : Nat}
    (h : (ofInput (.ofGrammar g) input).Lists s key number) (hone : s.length = 1) :
    ∃ f, (ofInput (.ofGrammar g) input).graph.forestAt? number = some f ∧
      g.Enumerates key (s.values input) f := by
  obtain ⟨rule, hrule, rfl, hvalues⟩ := h.exists_terminal_of_length_eq_one hone
  have htrees : (Forest.node rule.key [[]]).trees = [.leaf rule.key] := Forest.trees_of_isLeaf rfl
  refine ⟨.node rule.key [[]], (partsBelow_ofInput g input).forestAt?_graph
    (h.item?_of_length_eq_one hone), rfl, ?_, fun t => ?_⟩
  · rw [htrees]
    exact List.nodup_singleton _
  · rw [htrees, List.mem_singleton, hvalues, Grammar.yields_singleton_iff]
    constructor
    · rintro rfl
      exact ⟨rfl, rule, hrule, rfl, rfl⟩
    · rintro ⟨hkey, rule', -, -, rfl⟩
      exact congrArg Tree.leaf hkey

/-- The joint of two items divides the span `s` after `n` values, by the given rule for `key`, and
`l` and `r` are the forests of the two items. -/
structure PartsOf (g : Grammar K V) (input : List V) (s : Span) (key : K) (joint : Joint) (n : Nat)
    (rule : BinaryRule K) (l r : Forest K) : Prop where
  /-- The rule is one of the grammar. -/
  mem : rule ∈ g.binaries
  /-- It is a rule for the key. -/
  key_eq : rule.key = key
  /-- The left part is not empty. -/
  pos : 0 < n
  /-- The right part is not empty. -/
  lt : n < s.length
  /-- The left item has the left key. -/
  left : (ofInput (.ofGrammar g) input).Lists ⟨n, s.start⟩ rule.left joint.left
  /-- The right item has the right key. -/
  right : (ofInput (.ofGrammar g) input).Lists ⟨s.length - n, s.start + n⟩ rule.right joint.right
  /-- The two forests are those of the items. -/
  alternative_eq : (ofInput (.ofGrammar g) input).alternativeOf joint = [l, r]
  /-- The left forest stands for the derivations of the left part. -/
  enumerates_left : g.Enumerates rule.left ((s.values input).take n) l
  /-- The right forest stands for the derivations of the right part. -/
  enumerates_right : g.Enumerates rule.right ((s.values input).drop n) r

namespace PartsOf

variable {s : Span} {key : K} {joint : Joint} {n : Nat} {rule : BinaryRule K} {l r : Forest K}

theorem nodup_trees (h : PartsOf g input s key joint n rule l r) :
    ∀ child ∈ [l, r], child.trees.Nodup := by
  rw [List.forall_mem_cons, List.forall_mem_singleton]
  exact ⟨h.enumerates_left.nodup_trees, h.enumerates_right.nodup_trees⟩

private theorem mem_choices (h : PartsOf g input s key joint n rule l r) {ts : List (Tree K)} :
    ts ∈ choices ([l, r].map Forest.trees) ↔ ∃ a b, ts = [a, b] ∧
      (a.key = rule.left ∧ g.Yields a ((s.values input).take n)) ∧
      b.key = rule.right ∧ g.Yields b ((s.values input).drop n) := by
  simp only [List.map_cons, List.map_nil, mem_choices_pair, h.enumerates_left.mem_trees,
    h.enumerates_right.mem_trees]
  constructor
  · rintro ⟨a, ha, b, hb, rfl⟩
    exact ⟨a, b, rfl, ha, hb⟩
  · rintro ⟨a, b, rfl, ha, hb⟩
    exact ⟨a, ha, b, hb, rfl⟩

private theorem joint_eq {joint' : Joint} {n' : Nat} {rule' : BinaryRule K} {l' r' : Forest K}
    (h : PartsOf g input s key joint n rule l r) (h' : PartsOf g input s key joint' n' rule' l' r')
    (hstop : s.stop ≤ input.length) {ts : List (Tree K)}
    (hts : ts ∈ choices ([l, r].map Forest.trees))
    (hts' : ts ∈ choices ([l', r'].map Forest.trees)) : joint = joint' := by
  obtain ⟨a, b, rfl, ⟨hakey, ha⟩, hbkey, -⟩ := h.mem_choices.1 hts
  obtain ⟨a', b', heq, ⟨hakey', ha'⟩, hbkey', -⟩ := h'.mem_choices.1 hts'
  cases heq
  -- The left subtree has as many leaves as there are values before the division.
  have hlength := ha.length_eq ha'
  rw [List.length_take, List.length_take, Span.length_values hstop] at hlength
  have hlt := h.lt
  have hlt' := h'.lt
  obtain rfl : n = n' := by omega
  have hleft := h.left
  have hright := h.right
  rw [← hakey, hakey'] at hleft
  rw [← hbkey, hbkey'] at hright
  cases joint
  cases joint'
  congr
  · exact hleft.number_eq h'.left
  · exact hright.number_eq h'.right

end PartsOf

/-- A forest with an alternative for each of the given joints stands for the derivations over a
span, if the joints are all that divide it. -/
theorem enumerates_of_joints {s : Span} {key : K} {joints : List Joint}
    (hstop : s.stop ≤ input.length) (hone : 1 < s.length) (hne : joints ≠ [])
    (hnodup : joints.Nodup)
    (hparts : ∀ joint ∈ joints, ∃ n rule l r, PartsOf g input s key joint n rule l r)
    (hall : ∀ n, 0 < n → n < s.length → ∀ rule ∈ g.binaries, rule.key = key →
      g.Derives rule.left ((s.values input).take n) →
      g.Derives rule.right ((s.values input).drop n) →
      ∃ joint ∈ joints, ∃ l r, PartsOf g input s key joint n rule l r) :
    g.Enumerates key (s.values input)
      (.node key (joints.map (ofInput (.ofGrammar g) input).alternativeOf)) := by
  have hleaf : ¬(Forest.node key
      (joints.map (ofInput (.ofGrammar g) input).alternativeOf)).isLeaf := by
    obtain ⟨joint, hjoint⟩ := List.exists_mem_of_ne_nil joints hne
    obtain ⟨n, rule, l, r, h⟩ := hparts joint hjoint
    intro hleaf
    have hempty := List.all_eq_true.1 hleaf _ (List.mem_map_of_mem hjoint)
    rw [h.alternative_eq] at hempty
    cases hempty
  refine ⟨rfl, Forest.nodup_trees_node ?_ ?_, fun t => ?_⟩
  · rw [List.forall_mem_map]
    intro joint hjoint
    obtain ⟨n, rule, l, r, h⟩ := hparts joint hjoint
    rw [h.alternative_eq]
    exact h.nodup_trees
  · rw [List.pairwise_map]
    refine hnodup.imp_of_mem fun {j j'} hj hj' hne ts hts hts' => hne ?_
    obtain ⟨n, rule, l, r, h⟩ := hparts j hj
    obtain ⟨n', rule', l', r', h'⟩ := hparts j' hj'
    rw [h.alternative_eq] at hts
    rw [h'.alternative_eq] at hts'
    exact h.joint_eq h' hstop hts hts'
  · rw [Forest.mem_trees_node hleaf,
      Grammar.yields_iff_exists_split (by rwa [Span.length_values hstop])]
    constructor
    · rintro ⟨_, hmem, ts, hts, rfl⟩
      obtain ⟨joint, hjoint, rfl⟩ := List.mem_map.1 hmem
      obtain ⟨n, rule, l, r, h⟩ := hparts joint hjoint
      rw [h.alternative_eq, h.mem_choices] at hts
      obtain ⟨a, b, rfl, ⟨hakey, ha⟩, hbkey, hb⟩ := hts
      refine ⟨rfl, n, h.pos, ?_, rule, h.mem, a, b, by rw [h.key_eq], hakey, hbkey, ha, hb⟩
      rw [Span.length_values hstop]
      exact h.lt
    · rintro ⟨hkey, n, hpos, hlt, rule, hrule, a, b, rfl, hakey, hbkey, ha, hb⟩
      rw [Span.length_values hstop] at hlt
      obtain ⟨joint, hjoint, l, r, h⟩ := hall n hpos hlt rule hrule hkey
        (hakey ▸ ha.derives) (hbkey ▸ hb.derives)
      refine ⟨_, List.mem_map_of_mem hjoint, [a, b], ?_, congrArg (Tree.node · [a, b]) hkey.symm⟩
      rw [h.alternative_eq, h.mem_choices]
      exact ⟨a, b, rfl, ⟨hakey, ha⟩, hbkey, hb⟩

/-- The forest of an item stands for the derivations of the values over its span from its key. -/
theorem Lists.exists_enumerates {s : Span} {key : K} {number : Nat}
    (h : (ofInput (.ofGrammar g) input).Lists s key number) :
    ∃ f, (ofInput (.ofGrammar g) input).graph.forestAt? number = some f ∧
      g.Enumerates key (s.values input) f := by
  induction hlength : s.length using Nat.strongRecOn generalizing s key number with
  | ind length ih =>
    subst hlength
    have hstop := h.within.stop_le
    have hpos := h.within.length_pos
    rcases Nat.eq_or_lt_of_le hpos with hone | hone
    · exact h.exists_enumerates_of_length_eq_one hone.symm
    obtain ⟨joints, hitem, -⟩ := h.exists_item
    have hne : joints ≠ [] := fun heq =>
      absurd ((h.joints_eq_nil_iff hitem).1 heq) (Nat.ne_of_gt hone)
    have hpartsOf : ∀ n, 0 < n → n < s.length → ∀ rule ∈ g.binaries, rule.key = key →
        ∀ joint : Joint, (ofInput (.ofGrammar g) input).Lists ⟨n, s.start⟩ rule.left joint.left →
        (ofInput (.ofGrammar g) input).Lists ⟨s.length - n, s.start + n⟩ rule.right joint.right →
        ∃ l r, PartsOf g input s key joint n rule l r := by
      intro n hn hlt rule hrule hkey joint hleft hright
      obtain ⟨l, hl, henuml⟩ := ih n hlt hleft rfl
      obtain ⟨r, hr, henumr⟩ := ih (s.length - n) (Nat.sub_lt hpos hn) hright rfl
      refine ⟨l, r, hrule, hkey, hn, hlt, hleft, hright, ?_, ?_, ?_⟩
      · simp [alternativeOf, hl, hr]
      · rwa [Span.take_values (Nat.le_of_lt hlt)]
      · rwa [Span.drop_values]
    refine ⟨_, (partsBelow_ofInput g input).forestAt?_graph_of_joints hitem hne,
      enumerates_of_joints hstop hone hne (h.nodup_joints hitem) ?_ ?_⟩
    · intro joint hjoint
      obtain ⟨n, hn, hlt, rule, hrule, hkey, hleft, hright⟩ := (h.mem_joints hitem).1 hjoint
      exact ⟨n, rule, hpartsOf n hn hlt rule hrule hkey joint hleft hright⟩
    · intro n hn hlt rule hrule hkey hleft hright
      rw [Span.take_values (Nat.le_of_lt hlt)] at hleft
      rw [Span.drop_values] at hright
      obtain ⟨i, hi⟩ := (exists_lists_iff_derives (h.within.leftPart hn hlt)).2 hleft
      obtain ⟨j, hj⟩ := (exists_lists_iff_derives (h.within.rightPart hlt)).2 hright
      exact ⟨⟨i, j⟩, (h.mem_joints hitem).2 ⟨n, hn, hlt, rule, hrule, hkey, hi, hj⟩,
        hpartsOf n hn hlt rule hrule hkey ⟨i, j⟩ hi hj⟩

end Chart

namespace Parser

variable [DecidableEq K] [DecidableEq V] {g : Grammar K V} {input : List V}

theorem parse_of_ne_nil (g : Grammar K V) (h : input ≠ []) :
    (ofGrammar g).parse input = .ok ((ofGrammar g).forests (.ofInput (.ofGrammar g) input)) := by
  rw [parse, chart_of_ne_nil _ h]
  rfl

theorem toForests_forests (g : Grammar K V) (input : List V) :
    ((ofGrammar g).forests (.ofInput (.ofGrammar g) input)).toForests =
      ((ofGrammar g).roots (.ofInput (.ofGrammar g) input)).filterMap
        (Chart.ofInput (.ofGrammar g) input).graph.forestAt? := by
  refine Chart.toForests_forestsOf (Chart.partsBelow_ofInput g input) fun i hi => ?_
  obtain ⟨key, -, hlists⟩ := mem_roots.1 hi
  exact hlists.lt_size

theorem exists_enumerates_of_mem_forests {f : Forest K}
    (hf : f ∈ ((ofGrammar g).forests (.ofInput (.ofGrammar g) input)).toForests) :
    ∃ key ∈ g.starts, g.Enumerates key input f := by
  rw [toForests_forests, List.mem_filterMap] at hf
  obtain ⟨number, hroot, hforest⟩ := hf
  obtain ⟨key, hkey, hlists⟩ := mem_roots.1 hroot
  obtain ⟨f', hforest', henum⟩ := hlists.exists_enumerates
  cases hforest.symm.trans hforest'
  rw [Span.values_whole] at henum
  exact ⟨key, hkey, henum⟩

/-- The labels of the forests of a parse are the start keys that are listed for the input. -/
theorem labels_forests {cell : Cell K}
    (hcell : (Chart.ofInput (.ofGrammar g) input).cell? input.length 0 = some cell) :
    ((ofGrammar g).forests (.ofInput (.ofGrammar g) input)).toForests.map Forest.label =
      (cell.entries.filter fun entry => g.isStart entry.1).map Prod.fst := by
  have hroots : (ofGrammar g).roots (.ofInput (.ofGrammar g) input) =
      (cell.entries.filter fun entry => g.isStart entry.1).map Prod.snd := roots_eq hcell
  rw [toForests_forests, hroots, List.filterMap_map, List.map_filterMap, ← List.filterMap_eq_map]
  refine List.filterMap_congr fun entry hentry => ?_
  have hlists : (Chart.ofInput (.ofGrammar g) input).Lists ⟨input.length, 0⟩ entry.1 entry.2 :=
    ⟨cell, hcell, (List.mem_filter.1 hentry).1⟩
  obtain ⟨f, hforest, henum⟩ := hlists.exists_enumerates
  rw [Function.comp_apply, hforest, Option.map_some, henum.label_eq]
  rfl

theorem nodup_labels_forests (g : Grammar K V) (hinput : input ≠ []) :
    (((ofGrammar g).forests (.ofInput (.ofGrammar g) input)).toForests.map Forest.label).Nodup := by
  have hcell := Chart.cell?_ofInput (t := .ofGrammar g) (Span.within_whole hinput)
  rw [labels_forests hcell]
  exact (Chart.nodup_keys_entries (s := ⟨input.length, 0⟩) hcell).sublist
    (List.filter_sublist.map Prod.fst)

theorem mem_labels_forests (hinput : input ≠ []) {key : K} :
    key ∈ ((ofGrammar g).forests (.ofInput (.ofGrammar g) input)).toForests.map Forest.label ↔
      key ∈ g.starts ∧ g.Derives key input := by
  have hcell := Chart.cell?_ofInput (t := .ofGrammar g) (Span.within_whole hinput)
  rw [labels_forests hcell,
    ← Chart.exists_lists_whole_iff_derives hinput]
  simp [Chart.Lists, hcell, Grammar.isStart_iff, and_comm]

/-- **The forests of a parse are the derivations of the input.** There is one forest for each start
key that has a derivation, and its trees are the derivations from that key, each once. -/
theorem parse_enumerates (g : Grammar K V) {input : List V} (hinput : input ≠ []) :
    ∃ fs, (ofGrammar g).parse input = .ok fs ∧
      (fs.toForests.map Forest.label).Nodup ∧
      (∀ key, key ∈ fs.toForests.map Forest.label ↔
        key ∈ g.starts ∧ ∃ t : Tree K, t.key = key ∧ g.Yields t input) ∧
      ∀ f ∈ fs.toForests, f.trees.Nodup ∧
        ∀ t, t ∈ f.trees ↔ t.key = f.label ∧ g.Yields t input := by
  refine ⟨_, parse_of_ne_nil g hinput, nodup_labels_forests g hinput, fun key => ?_, fun f hf => ?_⟩
  · rw [mem_labels_forests hinput, Grammar.derives_iff_exists_yields]
  · obtain ⟨key, -, henum⟩ := exists_enumerates_of_mem_forests hf
    rw [henum.label_eq]
    exact ⟨henum.nodup_trees, henum.mem_trees⟩

/-- The derivation of `aabb` with the temporary key `T` is among the trees of its forest. -/
theorem parse_enumerates_pairs :
    ['a', 'a', 'b', 'b'] ≠ [] ∧ ∃ fs, (ofGrammar .pairs).parse ['a', 'a', 'b', 'b'] = .ok fs ∧
      ∃ f ∈ fs.toForests, f.label = 'S' ∧
        .node 'S' [.leaf 'a', .node 'T' [.node 'S' [.leaf 'a', .leaf 'b'], .leaf 'b']] ∈
          f.trees := by
  have hinput : ['a', 'a', 'b', 'b'] ≠ [] := List.cons_ne_nil _ _
  obtain ⟨fs, hfs, -, hlabels, hforests⟩ := parse_enumerates Grammar.pairs hinput
  obtain ⟨f, hf, hlabel⟩ := List.mem_map.1
    ((hlabels 'S').2 ⟨by decide, _, rfl, Grammar.pairs_yields_aabb⟩)
  exact ⟨hinput, fs, hfs, f, hf, hlabel,
    ((hforests f hf).2 _).2 ⟨hlabel.symm, Grammar.pairs_yields_aabb⟩⟩

end Parser

end ChartParsing
