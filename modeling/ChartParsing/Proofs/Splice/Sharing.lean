import ChartParsing.Proofs.Grammar.Splitting
import ChartParsing.Proofs.Splice.Forests
import Mathlib.Data.Set.Card

/-!
# Sharing is kept

Splicing turns the kept forests into nodes: leaves with the same key into one leaf, and every other
kept forest into a node of its own, which stands wherever the forest stood or was spliced to. The
spliced forests are made of these nodes and no others.

## Main definitions

* `SharedForests.kept`: the nodes below the roots that do not give way.

## Main results

* `ForestGraph.exists_mem_replacements_of_reaches`: every kept node below a node is a part of what
  takes its place, or stands below such a part.
* `SharedForests.SplicedTo.objects_eq`: the spliced forests are made of what the kept ones become.
* `SharedForests.splice_keeps_sharing`: which forests become the same node.
-/

namespace ChartParsing

universe u v

variable {K : Type u} {V : Type v}

/-! ### Parts of what takes the place of a node -/

namespace ForestGraph

variable {g : ForestGraph K} {flag? : K → Option Bool} {nodeOf : Nat → Nat} {i c : Nat}
  {n : ForestNode K}

/-- If something can take the place of every child, something takes the place of one of the
alternatives. -/
theorem splicedAlternatives_ne_nil (hn : g.nodes[i]? = some n) (hleaf : ¬n.isLeaf)
    (hchildren : ∀ c ∈ g.children i, g.replacements flag? nodeOf c ≠ []) :
    g.splicedAlternatives flag? nodeOf n ≠ [] := by
  obtain ⟨children, hmem, hne⟩ : ∃ children ∈ n.alternatives, children ≠ [] := by
    simpa [ForestNode.isLeaf] using hleaf
  have hchild : ∀ c ∈ children, g.replacements flag? nodeOf c ≠ [] := fun c hc =>
    hchildren c (mem_children hn hmem hc)
  obtain ⟨c, hc⟩ := List.exists_mem_of_ne_nil children hne
  obtain ⟨nodes, hnodes⟩ := List.exists_mem_of_ne_nil _ (hchild c hc)
  obtain ⟨nodes', hnodes', -⟩ := exists_subset_mem_spliceAlternatives
    (List.mem_map_of_mem hmem) (by simpa using hchild) (List.mem_map_of_mem hc) hnodes
  exact List.ne_nil_of_mem hnodes'

/-- There is something that can take the place of a node. -/
theorem replacements_ne_nil (hn : g.nodes[i]? = some n) :
    g.replacements flag? nodeOf i ≠ [] := by
  induction i using Nat.strongRecOn generalizing n with
  | ind i ih =>
    by_cases hway : n.GivesWay flag?
    · rw [replacements_of_givesWay hn hway]
      refine splicedAlternatives_ne_nil hn hway.1 fun c hc => ?_
      obtain ⟨n', hn'⟩ := exists_child_of_mem_children hc
      exact ih c (lt_of_mem_children hc) hn'
    · rw [replacements_of_not_givesWay hn hway]
      exact List.cons_ne_nil _ _

/-- Whatever can take the place of a child is a part of something that takes the place of an
alternative. -/
theorem exists_subset_mem_splicedAlternatives (hn : g.nodes[i]? = some n) (hc : c ∈ n.children)
    {nodes : List Nat} (hnodes : nodes ∈ g.replacements flag? nodeOf c) :
    ∃ nodes' ∈ g.splicedAlternatives flag? nodeOf n, nodes ⊆ nodes' := by
  obtain ⟨children, hmem, hc⟩ := List.mem_flatten.1 hc
  refine exists_subset_mem_spliceAlternatives (List.mem_map_of_mem hmem) (fun hempty => ?_)
    (List.mem_map_of_mem hc) hnodes
  obtain ⟨c', hc', hnil⟩ := List.mem_map.1 hempty
  obtain ⟨n', hn'⟩ := exists_child_of_mem_children (mem_children hn hmem hc')
  exact replacements_ne_nil hn' hnil

/-- On the way to a node that does not give way there is a first one that does not. It is a part of
what takes the place of the node where the way starts. -/
theorem exists_mem_replacements_of_reaches {k : Nat} (hreach : Reaches g.children c k)
    {n : ForestNode K} (hn : g.nodes[k]? = some n) (hway : ¬n.GivesWay flag?) :
    ∃ j n', Reaches g.children c j ∧ Reaches g.children j k ∧ g.nodes[j]? = some n' ∧
      ¬n'.GivesWay flag? ∧ ∃ nodes ∈ g.replacements flag? nodeOf c, nodeOf j ∈ nodes := by
  induction hreach with
  | refl c =>
    refine ⟨c, n, .refl c, .refl c, hn, hway, [nodeOf c], ?_, List.mem_cons_self⟩
    rw [replacements_of_not_givesWay hn hway]
    exact List.mem_cons_self
  | @step i c k edge path ih =>
    obtain ⟨n', hn'⟩ := exists_node_of_mem_children edge
    by_cases hway' : n'.GivesWay flag?
    · obtain ⟨j, n'', hcj, hjk, hj, hkept, nodes, hnodes, hmem⟩ := ih hn
      obtain ⟨nodes', hnodes', hsubset⟩ :=
        exists_subset_mem_splicedAlternatives hn' (children_eq hn' ▸ edge) hnodes
      rw [← replacements_of_givesWay hn' hway'] at hnodes'
      exact ⟨j, n'', .step edge hcj, hjk, hj, hkept, nodes', hnodes', hsubset hmem⟩
    · refine ⟨i, n', .refl i, .step edge path, hn', hway', [nodeOf i], ?_, List.mem_cons_self⟩
      rw [replacements_of_not_givesWay hn' hway']
      exact List.mem_cons_self

end ForestGraph

namespace SharedForests

/-! ### What the kept forests become -/

/-- The nodes below the roots that do not give way: leaves, and nodes with keys that are not
temporary. -/
def kept (fs : SharedForests K) (flag? : K → Option Bool) : Set Nat :=
  {i | i ∈ fs.objects ∧ ∃ n, fs.graph.nodes[i]? = some n ∧ ¬n.GivesWay flag?}

variable [DecidableEq K] {t : SpliceTable K V} {fs : SharedForests K} {nodeOf : Nat → Nat}
  {flat : SharedForests (Symbol K V)}

namespace SplicedTo

variable {i : Nat}

/-- What is below a kept forest after splicing, kept forests have become. -/
theorem exists_mem_kept_of_reaches (h : fs.SplicedTo t nodeOf flat) (hi : i ∈ fs.kept t.flag?)
    {m : Nat} (hreach : Reaches flat.graph.children (nodeOf i) m) :
    ∃ j ∈ fs.kept t.flag?, nodeOf j = m := by
  generalize hstart : nodeOf i = start at hreach
  induction hreach generalizing i with
  | refl _ => exact ⟨i, hi, hstart⟩
  | @step _ m' _ edge _ ih =>
    subst hstart
    obtain ⟨hobject, n, hn, hway⟩ := hi
    by_cases hleaf : n.isLeaf
    · obtain ⟨value, -, hnode⟩ := h.getElem?_leaf i hobject n hn hleaf
      rw [ForestGraph.children_eq hnode] at edge
      cases edge
    · rw [ForestGraph.children_eq (h.getElem?_node i hobject n hn hleaf hway)] at edge
      obtain ⟨nodes, hnodes, hm⟩ := List.mem_flatten.1 edge
      obtain ⟨c, hc, nodes', hnodes', hm'⟩ :=
        ForestGraph.exists_of_mem_splicedAlternatives hnodes hm
      obtain ⟨j, n', hcj, hn', hway', hj⟩ := ForestGraph.exists_of_mem_replacements hnodes' hm'
      have hchild : c ∈ fs.graph.children i := ForestGraph.children_eq hn ▸ hc
      exact ih ⟨mem_objects_of_reaches hobject (.step hchild hcj), n', hn', hway'⟩ hj

/-- A kept forest below another one has become a node below the other's. -/
theorem nodeOf_mem_objects_of_reaches (h : fs.SplicedTo t nodeOf flat) (hi : i ∈ fs.kept t.flag?)
    (hflat : nodeOf i ∈ flat.objects) {k : Nat} (hreach : Reaches fs.graph.children i k)
    (hk : k ∈ fs.kept t.flag?) : nodeOf k ∈ flat.objects := by
  induction i using Nat.strongRecOn with
  | ind i ih =>
    rcases reaches_iff.1 hreach with rfl | ⟨c, hc, path⟩
    · exact hflat
    obtain ⟨hobject, n, hn, hway⟩ := hi
    obtain ⟨-, n', hn', hway'⟩ := hk
    obtain ⟨j, n'', hcj, hjk, hj, hkept, nodes, hnodes, hmem⟩ :=
      ForestGraph.exists_mem_replacements_of_reaches path hn' hway'
    have hchild : c ∈ n.children := ForestGraph.children_eq hn ▸ hc
    have hleaf : ¬n.isLeaf := fun hleaf => by
      rw [ForestNode.children_eq_nil hleaf] at hchild
      cases hchild
    obtain ⟨nodes', hnodes', hsubset⟩ :=
      ForestGraph.exists_subset_mem_splicedAlternatives hn hchild hnodes
    have hbelow : nodeOf j ∈ flat.graph.children (nodeOf i) :=
      ForestGraph.mem_children (h.getElem?_node i hobject n hn hleaf hway) hnodes' (hsubset hmem)
    have hlt : j < i := Nat.lt_of_le_of_lt (hcj.le fun _ _ => ForestGraph.lt_of_mem_children)
      (ForestGraph.lt_of_mem_children hc)
    exact ih j hlt ⟨mem_objects_of_reaches hobject (.step hc hcj), n'', hj, hkept⟩
      (mem_objects_of_mem_children hflat hbelow) hjk

/-- The spliced forests are made of what the kept ones become. -/
theorem objects_eq (h : fs.SplicedTo t nodeOf flat)
    (hroots : ∀ r ∈ fs.roots, r ∈ fs.kept t.flag?) :
    flat.objects = nodeOf '' fs.kept t.flag? := by
  refine Set.Subset.antisymm ?_ ?_
  · rintro m ⟨r', hr', hreach⟩
    rw [h.roots_eq] at hr'
    obtain ⟨r, hr, rfl⟩ := List.mem_map.1 hr'
    exact h.exists_mem_kept_of_reaches (hroots r hr) hreach
  · rintro _ ⟨k, hk, rfl⟩
    obtain ⟨r, hr, hreach⟩ := hk.1
    have hflat : nodeOf r ∈ flat.roots := h.roots_eq ▸ List.mem_map_of_mem hr
    exact h.nodeOf_mem_objects_of_reaches (hroots r hr) (mem_objects_of_mem_roots hflat) hreach hk

/-- Which kept forests become the same node. -/
theorem nodeOf_eq_iff (h : fs.SplicedTo t nodeOf flat) {j : Nat} (hi : i ∈ fs.kept t.flag?)
    (hj : j ∈ fs.kept t.flag?) {n n' : ForestNode K} (hn : fs.graph.nodes[i]? = some n)
    (hn' : fs.graph.nodes[j]? = some n') :
    (¬n.isLeaf → ¬n'.isLeaf → (nodeOf i = nodeOf j ↔ i = j)) ∧
      (n.isLeaf → n'.isLeaf → (nodeOf i = nodeOf j ↔ n.label = n'.label)) ∧
      (n.isLeaf → ¬n'.isLeaf → nodeOf i ≠ nodeOf j) := by
  obtain ⟨hi, _, hni, hway⟩ := hi
  obtain ⟨hj, _, hnj, hway'⟩ := hj
  cases hn.symm.trans hni
  cases hn'.symm.trans hnj
  refine ⟨fun hleaf hleaf' =>
      ⟨h.eq_of_nodeOf_eq i hi j hj n n' hn hn' hleaf hleaf' hway hway', fun heq => heq ▸ rfl⟩,
    fun hleaf hleaf' => ⟨fun heq => ?_, fun heq => ?_⟩, fun hleaf hleaf' heq => ?_⟩
  · exact Splicing.eq_of_leafNode?_eq_some (h.leafNode?_eq i hi n hn hleaf)
      (heq ▸ h.leafNode?_eq j hj n' hn' hleaf')
  · have hlabel := h.leafNode?_eq j hj n' hn' hleaf'
    rw [← heq, h.leafNode?_eq i hi n hn hleaf] at hlabel
    exact Option.some.inj hlabel
  · obtain ⟨value, -, hnode⟩ := h.getElem?_leaf i hi n hn hleaf
    rw [heq, h.getElem?_node j hj n' hn' hleaf' hway'] at hnode
    cases hnode

end SplicedTo

variable [DecidableEq V] {g : Grammar K V}

/-- **Sharing is kept exactly.** If forests are spliced, each kept forest below the roots has become
one node, which stands for it at every root and in every alternative that it occurs in or is spliced
to. Leaves have become the same node exactly if their keys are equal, and other kept forests only if
they are the same; no leaf has become the same node as another forest. The spliced forests are made
of these nodes, so there are no more of them than there were before. -/
theorem splice_keeps_sharing (h : fs.splice g = .ok flat) :
    ∃ nodeOf : Nat → Nat,
      (∀ r ∈ fs.roots, r ∈ fs.kept g.isTemporary?) ∧ flat.roots = fs.roots.map nodeOf ∧
      (∀ i ∈ fs.kept g.isTemporary?, ∀ n, fs.graph.nodes[i]? = some n →
        (n.isLeaf → ∃ value, g.output? n.label = some value ∧
          flat.graph.nodes[nodeOf i]? = some ⟨.value value, [[]]⟩) ∧
        (¬n.isLeaf → flat.graph.nodes[nodeOf i]? =
          some ⟨.rule n.label, fs.graph.splicedAlternatives g.isTemporary? nodeOf n⟩)) ∧
      (∀ i ∈ fs.kept g.isTemporary?, ∀ j ∈ fs.kept g.isTemporary?, ∀ n n',
        fs.graph.nodes[i]? = some n → fs.graph.nodes[j]? = some n' →
          (¬n.isLeaf → ¬n'.isLeaf → (nodeOf i = nodeOf j ↔ i = j)) ∧
          (n.isLeaf → n'.isLeaf → (nodeOf i = nodeOf j ↔ n.label = n'.label)) ∧
          (n.isLeaf → ¬n'.isLeaf → nodeOf i ≠ nodeOf j)) ∧
      flat.objects = nodeOf '' fs.kept g.isTemporary? ∧
      flat.objects.encard ≤ fs.objects.encard := by
  obtain ⟨t, ht, hflat⟩ := splice_eq_ok_iff.1 h
  obtain ⟨hfault, nodeOf, hspliced⟩ := exists_splicedTo hflat
  have hflag : g.isTemporary? = t.flag? := funext fun key => (SpliceTable.flag?_eq ht key).symm
  have hroots : ∀ r ∈ fs.roots, r ∈ fs.kept t.flag? := fun r hr => by
    obtain ⟨n, hn⟩ := exists_node_of_mem_objects (mem_objects_of_mem_roots hr)
    refine ⟨mem_objects_of_mem_roots hr, n, hn, fun hway => ?_⟩
    cases ((firstFault?_eq_none_iff_objects.1 hfault).1 r hr n hn).symm.trans hway.2
  have hobjects := hspliced.objects_eq hroots
  rw [hflag]
  refine ⟨nodeOf, hroots, hspliced.roots_eq, ?_, fun i hi j hj n n' hn hn' =>
    hspliced.nodeOf_eq_iff hi hj hn hn', hobjects, ?_⟩
  · rintro i ⟨hi, n, hn, hway⟩ n' hn'
    obtain rfl : n = n' := Option.some.inj (hn.symm.trans hn')
    refine ⟨fun hleaf => ?_, fun hleaf => hspliced.getElem?_node i hi n hn hleaf hway⟩
    rw [← SpliceTable.output?_eq ht]
    exact hspliced.getElem?_leaf i hi n hn hleaf
  · calc flat.objects.encard = (nodeOf '' fs.kept t.flag?).encard := by rw [hobjects]
      _ ≤ (fs.kept t.flag?).encard := Set.encard_image_le nodeOf _
      _ ≤ fs.objects.encard := Set.encard_le_encard fun _ hi => hi.1

/-- Shared forests with the keys of `Grammar.pairs`: two leaves for `a`, a forest for `S` over each
of them, and a temporary forest with both below one root, of which the other root is a child,
too. -/
def sharedTwins : SharedForests Char :=
  .ofRoots (.ofNodes [⟨'a', [[]]⟩, ⟨'a', [[]]⟩, ⟨'b', [[]]⟩, ⟨'S', [[0, 2]]⟩, ⟨'S', [[1, 2]]⟩,
    ⟨'T', [[3, 2], [4, 2]]⟩, ⟨'S', [[0, 5], [3, 4]]⟩]) [6, 3]

/-- The two leaves become one node, but not the forests over them, equal as they look then. -/
theorem splice_keeps_sharing_sharedTwins :
    ∃ flat nodeOf, sharedTwins.splice .pairs = .ok flat ∧ flat.roots = [6, 3].map nodeOf ∧
      nodeOf 0 = nodeOf 1 ∧ nodeOf 3 ≠ nodeOf 4 ∧
      flat.graph.nodes[nodeOf 3]? = flat.graph.nodes[nodeOf 4]? ∧
      flat.objects.encard ≤ sharedTwins.objects.encard := by
  obtain ⟨flat, hflat⟩ : ∃ flat, sharedTwins.splice .pairs = .ok flat := ⟨_, rfl⟩
  obtain ⟨nodeOf, -, hroots, hnodes, hsame, -, hcard⟩ := splice_keeps_sharing hflat
  have hroot : 6 ∈ sharedTwins.objects := mem_objects_of_mem_roots (by decide)
  have hleft : 3 ∈ sharedTwins.objects := mem_objects_of_mem_children hroot (by decide)
  have hright : 4 ∈ sharedTwins.objects := mem_objects_of_mem_children hroot (by decide)
  have hkept : ∀ i ∈ sharedTwins.objects, ∀ n, sharedTwins.graph.nodes[i]? = some n →
      ¬n.GivesWay Grammar.pairs.isTemporary? → i ∈ sharedTwins.kept Grammar.pairs.isTemporary? :=
    fun i hi n hn hway => ⟨hi, n, hn, hway⟩
  have hleaf := hkept 0 (mem_objects_of_mem_children hleft (by decide)) ⟨'a', [[]]⟩ rfl (by decide)
  have hleaf' := hkept 1 (mem_objects_of_mem_children hright (by decide)) ⟨'a', [[]]⟩ rfl
    (by decide)
  have hover := hkept 3 hleft ⟨'S', [[0, 2]]⟩ rfl (by decide)
  have hover' := hkept 4 hright ⟨'S', [[1, 2]]⟩ rfl (by decide)
  have heq : nodeOf 0 = nodeOf 1 := (hsame 0 hleaf 1 hleaf' _ _ rfl rfl).2.1 rfl rfl |>.2 rfl
  have hleaves : ∀ i n, sharedTwins.graph.nodes[i]? = some n → n.isLeaf →
      sharedTwins.graph.replacements Grammar.pairs.isTemporary? nodeOf i = [[nodeOf i]] :=
    fun i n hn hleaf => ForestGraph.replacements_of_not_givesWay hn fun hway => hway.1 hleaf
  refine ⟨flat, nodeOf, hflat, hroots, heq, ?_, ?_, hcard⟩
  · rw [ne_eq, (hsame 3 hover 4 hover' _ _ rfl rfl).1 (by decide) (by decide)]
    decide
  · rw [(hnodes 3 hover ⟨'S', [[0, 2]]⟩ rfl).2 (by decide),
      (hnodes 4 hover' ⟨'S', [[1, 2]]⟩ rfl).2 (by decide)]
    simp [ForestGraph.splicedAlternatives, spliceAlternatives, hleaves 0 ⟨'a', [[]]⟩ rfl rfl,
      hleaves 1 ⟨'a', [[]]⟩ rfl rfl, hleaves 2 ⟨'b', [[]]⟩ rfl rfl, heq]

end SharedForests

end ChartParsing
