import ChartParsing.Proofs.Related
import ChartParsing.Proofs.Splice.Running

/-!
# Spliced forests

Splicing fails with the first fault below the roots, if there is one. Otherwise each kept forest
below the roots has become one node, and the spliced forests are made of these nodes as the forests
were; so what takes the place of a forest is what the recursion on it gives.

## Main definitions

* `SharedForests.SplicedTo`: what shared forests have become, node by node.

## Main results

* `SharedForests.firstFault?_eq_none_iff_objects`: no fault below the roots, node by node.
* `SharedForests.exists_splicedTo`, `SharedForests.spliceBy_eq_error_iff`: the outcomes of splicing.
* `SharedForests.SplicedTo.map_replacements`: nodes and the forests that they stand for.
* `SharedForests.exists_splice_eq_ok_iff`, `SharedForests.splice_eq_error_iff`: when splicing
  succeeds, and with which error it fails.
* `SharedForests.exists_table_of_splice`: the spliced forests, one for each root.
-/

namespace ChartParsing

universe u v w

variable {K : Type u} {V : Type v} [DecidableEq K]

namespace SharedForests

omit [DecidableEq K] in
theorem forall₂_roots {L : Type w} {R : Forest K → Forest L → Prop} {fs : SharedForests K}
    {fs' : SharedForests L} (h : List.Forall₂ R fs.toForests fs'.toForests) :
    List.Forall₂ (fun r r' => ∃ f f', fs.graph.forestAt? r = some f ∧
      fs'.graph.forestAt? r' = some f' ∧ R f f') fs.roots fs'.roots :=
  forall₂_of_filterMap
    (fun r hr => ForestGraph.isSome_forestAt?_iff.2 (fs.roots_lt r hr))
    (fun r hr => ForestGraph.isSome_forestAt?_iff.2 (fs'.roots_lt r hr)) h

/-! ### Outcomes -/

/-- The forests in `fs` have become those in `flat`, where `nodeOf` says which node each forest
below the roots has become that is kept. -/
structure SplicedTo (fs : SharedForests K) (t : SpliceTable K V) (nodeOf : Nat → Nat)
    (flat : SharedForests (Symbol K V)) : Prop where
  /-- The roots are kept. -/
  roots_eq : flat.roots = fs.roots.map nodeOf
  /-- Leaves have become the leaves of their keys. -/
  leafNode?_eq : ∀ i ∈ fs.objects, ∀ n, fs.graph.nodes[i]? = some n → n.isLeaf →
    Splicing.leafNode? t n.label = some (nodeOf i)
  /-- A leaf stands for the output of its key. -/
  getElem?_leaf : ∀ i ∈ fs.objects, ∀ n, fs.graph.nodes[i]? = some n → n.isLeaf →
    ∃ value, t.output? n.label = some value ∧
      flat.graph.nodes[nodeOf i]? = some ⟨.value value, [[]]⟩
  /-- Any other forest that does not give way has spliced alternatives. -/
  getElem?_node : ∀ i ∈ fs.objects, ∀ n, fs.graph.nodes[i]? = some n → ¬n.isLeaf →
    ¬n.GivesWay t.flag? → flat.graph.nodes[nodeOf i]? =
      some ⟨.rule n.label, fs.graph.splicedAlternatives t.flag? nodeOf n⟩
  /-- Different forests that are no leaves have become different nodes. -/
  eq_of_nodeOf_eq : ∀ i ∈ fs.objects, ∀ j ∈ fs.objects, ∀ n n', fs.graph.nodes[i]? = some n →
    fs.graph.nodes[j]? = some n' → ¬n.isLeaf → ¬n'.isLeaf → ¬n.GivesWay t.flag? →
      ¬n'.GivesWay t.flag? → nodeOf i = nodeOf j → i = j

variable {t : SpliceTable K V} {fs : SharedForests K} {nodeOf : Nat → Nat}
  {flat : SharedForests (Symbol K V)}

theorem firstFault?_eq_findSome? (t : SpliceTable K V) (fs : SharedForests K) :
    t.firstFault? fs = fs.roots.findSome? (fs.graph.rootFault? t) := by
  rw [SpliceTable.firstFault?, toForests, atRoots, findSome?_filterMap]
  congr 1
  funext r
  show (fs.graph.forestAt? r).bind _ = _
  rw [ForestGraph.rootFault?, ForestGraph.fault?, ForestGraph.forestAt?_eq]
  cases fs.graph.nodes[r]? <;> rfl

/-- There is no fault below the roots exactly if no root is temporary and nothing is wrong with any
node below. -/
theorem firstFault?_eq_none_iff_objects :
    t.firstFault? fs = none ↔
      (∀ r ∈ fs.roots, ∀ n, fs.graph.nodes[r]? = some n → t.flag? n.label = some false) ∧
        ∀ i ∈ fs.objects, ∀ n, fs.graph.nodes[i]? = some n → t.ownFault? n = none := by
  have hroot : ∀ r ∈ fs.roots, ∀ n, fs.graph.nodes[r]? = some n →
      (fs.graph.rootFault? t r = none ↔
        t.flag? n.label = some false ∧ fs.graph.fault? t r = none) := fun r _ n hn => by
    rw [ForestGraph.rootFault?, hn, Option.bind_some, Option.or_eq_none_iff,
      SpliceTable.rootFault?_eq_none_iff]
  rw [firstFault?_eq_findSome?, List.findSome?_eq_none_iff]
  constructor
  · refine fun h => ⟨fun r hr n hn => ((hroot r hr n hn).1 (h r hr)).1, ?_⟩
    rintro i ⟨r, hr, hreach⟩ n hn
    obtain ⟨n', hn'⟩ := exists_node_of_mem_objects (mem_objects_of_mem_roots hr)
    exact ForestGraph.fault?_eq_none_iff.1 ((hroot r hr n' hn').1 (h r hr)).2 i n hreach hn
  · rintro ⟨hflag, hown⟩ r hr
    obtain ⟨n, hn⟩ := exists_node_of_mem_objects (mem_objects_of_mem_roots hr)
    exact (hroot r hr n hn).2 ⟨hflag r hr n hn, ForestGraph.fault?_eq_none_iff.2
      fun i n' hreach hn' => hown i ⟨r, hr, hreach⟩ n' hn'⟩

/-- A valid state in which everything below the roots is settled says what the forests have
become. -/
theorem splicedTo_of_settled {s : Splicing K V} (hs : Splicing.Valid t fs.graph s)
    (hsettled : ∀ r ∈ fs.roots, s.Settled t fs.graph r) (hnames : s.Names t fs.graph nodeOf)
    (hroots : ∀ r ∈ fs.roots, ∀ n, fs.graph.nodes[r]? = some n → ¬n.GivesWay t.flag?) :
    fs.SplicedTo t nodeOf (ofRoots s.graph (fs.roots.map nodeOf)) := by
  have hknown : ∀ i ∈ fs.objects, ∀ n, fs.graph.nodes[i]? = some n → ¬n.GivesWay t.flag? →
      s.node? t fs.graph i = some (nodeOf i) := fun i hi n hn hway => by
    obtain ⟨r, hr, hreach⟩ := hi
    obtain ⟨m, hm⟩ := (hsettled r hr i n hreach hn).2 hway
    rw [hm, hnames i m hm]
  have hkept : ∀ i ∈ fs.objects, ∀ n, fs.graph.nodes[i]? = some n → ¬n.isLeaf →
      ¬n.GivesWay t.flag? → s.kept.lookup i = some (nodeOf i) := fun i hi n hn hleaf hway =>
    (Splicing.node?_of_not_isLeaf s hn hleaf).symm.trans (hknown i hi n hn hway)
  have hleaves : ∀ i ∈ fs.objects, ∀ n, fs.graph.nodes[i]? = some n → n.isLeaf →
      Splicing.leafNode? t n.label = some (nodeOf i) := fun i hi n hn hleaf =>
    (Splicing.node?_of_isLeaf s hn hleaf).symm.trans (hknown i hi n hn fun hway => hway.1 hleaf)
  refine
    { roots_eq := List.filter_eq_self.2 ?_
      leafNode?_eq := hleaves
      getElem?_leaf := fun i hi n hn hleaf => ?_
      getElem?_node := fun i hi n hn hleaf hway =>
        hs.getElem?_kept i _ n (hkept i hi n hn hleaf hway) hn hleaf nodeOf hnames
      eq_of_nodeOf_eq := fun i hi j hj n n' hn hn' hleaf hleaf' hway hway' heq => ?_ }
  · rw [List.forall_mem_map]
    intro r hr
    obtain ⟨n, hn⟩ := exists_node_of_mem_objects (mem_objects_of_mem_roots hr)
    exact decide_eq_true
      (hs.lt_size_of_node? (hknown r (mem_objects_of_mem_roots hr) n hn (hroots r hr n hn)))
  · obtain ⟨entry, hentry, -, houtput⟩ :=
      Splicing.exists_of_leafNode?_eq_some (hleaves i hi n hn hleaf)
    exact ⟨entry.2, houtput, hs.getElem?_leaves _ entry hentry⟩
  · exact hs.eq_of_kept i j _ n n' (hkept i hi n hn hleaf hway)
      (heq ▸ hkept j hj n' hn' hleaf' hway') hn hn' hleaf hleaf'

/-- Splicing fails with the first fault, or else succeeds. -/
theorem spliceBy_outcome (t : SpliceTable K V) (fs : SharedForests K) :
    (∃ e, t.firstFault? fs = some e ∧ fs.spliceBy t = .error e) ∨
      t.firstFault? fs = none ∧
        ∃ nodeOf flat, fs.spliceBy t = .ok flat ∧ fs.SplicedTo t nodeOf flat := by
  have hmeets := Splicing.meets_spliceRoots (t := t) fs.roots_lt
  rw [← firstFault?_eq_findSome?] at hmeets
  rw [spliceBy]
  generalize Splicing.forEach _ _ _ _ fs.roots = o at hmeets
  cases hmeets with
  | error fault_eq => exact .inl ⟨_, fault_eq, rfl⟩
  | @ok s roots fault_eq valid extension settled value_eq =>
    have hnames := Splicing.names_getD s t fs.graph
    have hroots := value_eq _ hnames
    subst hroots
    refine .inr ⟨fault_eq, _, _, rfl,
      splicedTo_of_settled valid settled hnames fun r hr n hn hway => ?_⟩
    cases ((firstFault?_eq_none_iff_objects.1 fault_eq).1 r hr n hn).symm.trans hway.2

/-- If forests are spliced, there is no fault and they have become the spliced forests. -/
theorem exists_splicedTo (h : fs.spliceBy t = .ok flat) :
    t.firstFault? fs = none ∧ ∃ nodeOf, fs.SplicedTo t nodeOf flat := by
  rcases spliceBy_outcome t fs with ⟨e, -, herror⟩ | ⟨hfault, nodeOf, flat', hok, hspliced⟩
  · cases h.symm.trans herror
  · cases h.symm.trans hok
    exact ⟨hfault, nodeOf, hspliced⟩

theorem spliceBy_eq_error_iff {e : SpliceError K} :
    fs.spliceBy t = .error e ↔ t.firstFault? fs = some e := by
  rcases spliceBy_outcome t fs with ⟨e', hfault, herror⟩ | ⟨hfault, _, _, hok, -⟩
  · rw [hfault, herror, Except.error.injEq, Option.some.injEq]
  · rw [hfault, hok]
    exact iff_of_false nofun nofun

/-! ### Nodes and what they stand for -/

namespace SplicedTo

variable {i : Nat} {n : ForestNode K}

/-- What takes the place of alternatives stands for what does so in the forest, if this is so for
the children. -/
theorem map_splicedAlternatives (nodeOf : Nat → Nat) (flat : SharedForests (Symbol K V))
    (hn : fs.graph.nodes[i]? = some n)
    (hchildren : ∀ c ∈ fs.graph.children i, ∀ f, fs.graph.forestAt? c = some f →
      (fs.graph.replacements t.flag? nodeOf c).map (List.filterMap flat.graph.forestAt?) =
        f.replacements t) :
    (fs.graph.splicedAlternatives t.flag? nodeOf n).map (List.filterMap flat.graph.forestAt?) =
      Forest.splicedAlternatives t (n.alternatives.map (List.filterMap fs.graph.forestAt?)) := by
  rw [ForestGraph.splicedAlternatives, map_spliceAlternatives, Forest.splicedAlternatives,
    List.map_map, List.map_map]
  refine congrArg spliceAlternatives (List.map_congr_left fun children hmem => ?_)
  rw [Function.comp_apply, Function.comp_apply, List.map_map, List.map_filterMap,
    ← List.filterMap_eq_map]
  refine List.filterMap_congr fun c hc => ?_
  have hchild := ForestGraph.mem_children hn hmem hc
  obtain ⟨f, hf⟩ := ForestGraph.exists_forestAt?_of_mem_children hchild
  rw [hf, Option.map_some, ← hchildren c hchild f hf]
  rfl

/-- What takes the place of a node stands for what takes the place of its forest. -/
theorem map_replacements (h : fs.SplicedTo t nodeOf flat) (hi : i ∈ fs.objects) {f : Forest K}
    (hf : fs.graph.forestAt? i = some f) :
    (fs.graph.replacements t.flag? nodeOf i).map (List.filterMap flat.graph.forestAt?) =
      f.replacements t := by
  induction i using Nat.strongRecOn generalizing f with
  | ind i ih =>
    obtain ⟨n, hn, rfl⟩ := ForestGraph.exists_node_of_forestAt?_eq_some hf
    have halternatives := map_splicedAlternatives nodeOf flat hn fun c hc f hf =>
      ih c (ForestGraph.lt_of_mem_children hc) (mem_objects_of_mem_children hi hc) hf
    have hleaf_iff := ForestGraph.isLeaf_unfolded hn
    by_cases hway : n.GivesWay t.flag?
    · rw [ForestGraph.replacements_of_givesWay hn hway, halternatives,
        Forest.replacements_of_temporary (hleaf_iff ▸ hway.1) hway.2]
    rw [ForestGraph.replacements_of_not_givesWay hn hway]
    by_cases hleaf : n.isLeaf
    · obtain ⟨value, hvalue, hnode⟩ := h.getElem?_leaf i hi n hn hleaf
      have hforest : flat.graph.forestAt? (nodeOf i) = some (.node (.value value) [[]]) := by
        rw [ForestGraph.forestAt?_eq, hnode]
        rfl
      rw [Forest.replacements_of_isLeaf (hleaf_iff.trans hleaf) hvalue]
      simp [hforest]
    · have hforest := flat.graph.forestAt?_eq (nodeOf i)
      rw [h.getElem?_node i hi n hn hleaf hway, Option.map_some, halternatives] at hforest
      rw [Forest.replacements_of_not_temporary (hleaf_iff ▸ hleaf) fun hflag => hway ⟨hleaf, hflag⟩]
      simp [hforest]

/-- Each forest is replaced by the spliced forest in its place. -/
theorem forall₂_toForests (h : fs.SplicedTo t nodeOf flat) (hfault : t.firstFault? fs = none) :
    List.Forall₂ (fun f f' => f.replacements t = [[f']]) fs.toForests flat.toForests := by
  have hroots : flat.toForests = fs.roots.filterMap fun r => flat.graph.forestAt? (nodeOf r) := by
    show flat.roots.filterMap flat.graph.forestAt? = _
    rw [h.roots_eq, List.filterMap_map]
    rfl
  rw [hroots]
  refine forall₂_filterMap (f := fs.graph.forestAt?) (List.forall₂_same.2 fun r hr => ?_)
  obtain ⟨f, hf⟩ := exists_forestAt?_of_mem_roots hr
  obtain ⟨hflag, hfault⟩ :=
    SpliceTable.firstFault?_eq_none_iff.1 hfault f (mem_toForests.2 ⟨r, hr, hf⟩)
  obtain ⟨f', hf'⟩ := Forest.exists_replacements_eq_singleton hflag hfault
  obtain ⟨n, hn, rfl⟩ := ForestGraph.exists_node_of_forestAt?_eq_some hf
  have hway : ¬n.GivesWay t.flag? := fun hway => by cases hflag.symm.trans hway.2
  have hreplace := h.map_replacements (mem_objects_of_mem_roots hr) hf
  rw [ForestGraph.replacements_of_not_givesWay hn hway, hf'] at hreplace
  refine ⟨_, f', hf, ?_, hf'⟩
  cases hforest : flat.graph.forestAt? (nodeOf r) with
  | none => simp [hforest] at hreplace
  | some f'' => simpa [hforest] using hreplace

end SplicedTo

/-! ### Splicing with a grammar -/

variable [DecidableEq V] {g : Grammar K V}

theorem splice_eq_ok_iff :
    fs.splice g = .ok flat ↔ ∃ t, SpliceTable.ofGrammar g = .ok t ∧ fs.spliceBy t = .ok flat := by
  rw [splice]
  cases SpliceTable.ofGrammar g <;> simp

/-- Splicing succeeds exactly for a grammar with a table and forests without faults. -/
theorem exists_splice_eq_ok_iff :
    (∃ flat, fs.splice g = .ok flat) ↔
      ∃ t, SpliceTable.ofGrammar g = .ok t ∧ t.firstFault? fs = none := by
  simp only [splice_eq_ok_iff]
  constructor
  · rintro ⟨flat, t, ht, hflat⟩
    exact ⟨t, ht, (exists_splicedTo hflat).1⟩
  · rintro ⟨t, ht, hfault⟩
    rcases spliceBy_outcome t fs with ⟨e, he, -⟩ | ⟨-, _, flat, hflat, -⟩
    · cases hfault.symm.trans he
    · exact ⟨flat, t, ht, hflat⟩

/-- Splicing fails for what is wrong with the grammar, or else for the first fault. -/
theorem splice_eq_error_iff {e : SpliceError K} :
    fs.splice g = .error e ↔ SpliceTable.ofGrammar g = .error e ∨
      ∃ t, SpliceTable.ofGrammar g = .ok t ∧ t.firstFault? fs = some e := by
  rw [splice]
  cases SpliceTable.ofGrammar g <;> simp [spliceBy_eq_error_iff]

/-- If forests are spliced, there is a table for the grammar and no fault below the roots, and each
forest is replaced by the spliced forest in its place. -/
theorem exists_table_of_splice (h : fs.splice g = .ok flat) :
    ∃ t, SpliceTable.ofGrammar g = .ok t ∧ t.firstFault? fs = none ∧
      List.Forall₂ (fun f f' => f.replacements t = [[f']]) fs.toForests flat.toForests := by
  obtain ⟨t, ht, hflat⟩ := splice_eq_ok_iff.1 h
  obtain ⟨hfault, nodeOf, hspliced⟩ := exists_splicedTo hflat
  exact ⟨t, ht, hfault, hspliced.forall₂_toForests hfault⟩

end SharedForests

end ChartParsing
