import ChartParsing.Proofs.Splice.Lookup
import ChartParsing.Proofs.Splice.Replacements
import ChartParsing.Splice.Basic

/-!
# What splicing remembers

While forests are spliced it becomes known, node by node, what the forests that are kept have
become; once known, this never changes. So what is remembered can be stated against any naming
`nodeOf` of nodes that agrees with what is known: a list that takes the place of an alternative is
the one that the recursion on nodes gives with `nodeOf`, and so are the alternatives of the nodes
that have been made. Everything below what is remembered is settled, so remembering hides no fault.

## Main definitions

* `Splicing.node?`, `Splicing.Names`: what is known of the nodes that forests become.
* `Splicing.Settled`: everything below a node is known and without faults.
* `Splicing.Extends`: nothing is forgotten.
* `Splicing.Valid`: the invariant of splicing.

## Main results

* `Splicing.valid_start`: the invariant holds at the start.
* `Splicing.Valid.rememberReplaced`, `Splicing.Valid.of_kept_eq_cons`: it is preserved when
  something more is remembered.
-/

namespace ChartParsing

universe u v

namespace Splicing

variable {K : Type u} {V : Type v} [DecidableEq K]
variable {t : SpliceTable K V} {g : ForestGraph K} {s s' s'' : Splicing K V}

/-! ### Leaves -/

/-- The number of a leaf is the place of the output that is looked up. -/
theorem output?_eq_leafNode? (t : SpliceTable K V) (key : K) :
    t.output? key = ((leafNode? t key).bind (t.outputs[·]?)).map Prod.snd := by
  rw [SpliceTable.output?, leafNode?]
  induction t.outputs with
  | nil => rfl
  | cons entry entries ih =>
    obtain ⟨k, value⟩ := entry
    rw [lookup_cons_eq_ite, ih, List.findIdx?_cons]
    by_cases hkey : k = key
    · simp [hkey]
    · simp only [hkey, Ne.symm hkey, decide_false, Bool.false_eq_true, if_false, Option.bind_map]
      rfl

theorem exists_of_leafNode?_eq_some {key : K} {m : Nat} (h : leafNode? t key = some m) :
    ∃ entry, t.outputs[m]? = some entry ∧ entry.1 = key ∧ t.output? key = some entry.2 := by
  obtain ⟨hm, hkey, -⟩ := List.findIdx?_eq_some_iff_getElem.1 h
  refine ⟨t.outputs[m], List.getElem?_eq_getElem hm, of_decide_eq_true hkey, ?_⟩
  rw [output?_eq_leafNode?, h, Option.bind_some, List.getElem?_eq_getElem hm]
  rfl

theorem output?_eq_none_of_leafNode? {key : K} (h : leafNode? t key = none) :
    t.output? key = none := by
  rw [output?_eq_leafNode?, h]
  rfl

theorem eq_of_leafNode?_eq_some {key key' : K} {m : Nat} (h : leafNode? t key = some m)
    (h' : leafNode? t key' = some m) : key = key' := by
  obtain ⟨entry, hentry, rfl, -⟩ := exists_of_leafNode?_eq_some h
  obtain ⟨entry', hentry', rfl, -⟩ := exists_of_leafNode?_eq_some h'
  cases hentry.symm.trans hentry'
  rfl

omit [DecidableEq K] in
theorem getElem?_nodes_start (t : SpliceTable K V) (m : Nat) :
    (start t).graph.nodes[m]? = t.outputs[m]?.map fun entry => ⟨.value entry.2, [[]]⟩ := by
  have hnodes : (start t).graph.nodes.toList =
      t.outputs.map fun entry => ⟨.value entry.2, [[]]⟩ := by
    refine ForestGraph.nodes_ofNodes fun i n hn c hc => ?_
    rw [List.getElem?_map, Option.map_eq_some_iff] at hn
    obtain ⟨entry, -, rfl⟩ := hn
    cases hc
  rw [← Array.getElem?_toList, hnodes, List.getElem?_map]

/-! ### What is known -/

/-- The node that the forest of a node becomes, if it is kept and that is known. -/
def node? (s : Splicing K V) (t : SpliceTable K V) (g : ForestGraph K) (i : Nat) : Option Nat :=
  g.nodes[i]?.bind fun n => if n.isLeaf then leafNode? t n.label else s.kept.lookup i

/-- `nodeOf` gives the nodes that are known. -/
def Names (s : Splicing K V) (t : SpliceTable K V) (g : ForestGraph K) (nodeOf : Nat → Nat) :
    Prop :=
  ∀ i m, s.node? t g i = some m → nodeOf i = m

/-- Nothing is wrong with a node and those below it, and it is known what they become that do not
give way. -/
def Settled (s : Splicing K V) (t : SpliceTable K V) (g : ForestGraph K) (i : Nat) : Prop :=
  ∀ j n, Reaches g.children i j → g.nodes[j]? = some n →
    t.ownFault? n = none ∧ (¬n.GivesWay t.flag? → ∃ m, s.node? t g j = some m)

section Known

variable {i m : Nat} {n : ForestNode K}

theorem node?_of_isLeaf (s : Splicing K V) (hn : g.nodes[i]? = some n) (h : n.isLeaf) :
    s.node? t g i = leafNode? t n.label := by
  rw [node?, hn, Option.bind_some, if_pos h]

theorem node?_of_not_isLeaf (s : Splicing K V) (hn : g.nodes[i]? = some n) (h : ¬n.isLeaf) :
    s.node? t g i = s.kept.lookup i := by
  rw [node?, hn, Option.bind_some, if_neg h]

/-- There is a naming. -/
theorem names_getD (s : Splicing K V) (t : SpliceTable K V) (g : ForestGraph K) :
    s.Names t g fun i => (s.node? t g i).getD 0 :=
  fun _ _ h => congrArg (Option.getD · 0) h

theorem Settled.fault?_eq_none (h : s.Settled t g i) : g.fault? t i = none :=
  ForestGraph.fault?_eq_none_iff.2 fun j n hreach hn => (h j n hreach hn).1

theorem Settled.of_eq_none (hn : g.nodes[i]? = none) : s.Settled t g i := by
  intro j n' hreach hn'
  rcases reaches_iff.1 hreach with rfl | ⟨c, hc, -⟩
  · cases hn.symm.trans hn'
  · obtain ⟨n, hn'⟩ := ForestGraph.exists_node_of_mem_children hc
    cases hn.symm.trans hn'

theorem Settled.of_children (hn : g.nodes[i]? = some n) (hown : t.ownFault? n = none)
    (hnode : ¬n.GivesWay t.flag? → ∃ m, s.node? t g i = some m)
    (h : ∀ c ∈ n.children, s.Settled t g c) : s.Settled t g i := by
  intro j n' hreach hn'
  rcases reaches_iff.1 hreach with rfl | ⟨c, hc, path⟩
  · cases hn.symm.trans hn'
    exact ⟨hown, hnode⟩
  · exact h c (ForestGraph.children_eq hn ▸ hc) j n' path hn'

theorem Settled.of_leafNode? (hn : g.nodes[i]? = some n) (h : n.isLeaf)
    (hm : leafNode? t n.label = some m) : t.ownFault? n = none ∧ s.Settled t g i := by
  obtain ⟨entry, -, -, houtput⟩ := exists_of_leafNode?_eq_some hm
  have hown : t.ownFault? n = none := by
    rw [SpliceTable.ownFault?, if_pos h, houtput]
  refine ⟨hown, .of_children hn hown (fun _ => ⟨m, (node?_of_isLeaf s hn h).trans hm⟩) ?_⟩
  rw [ForestNode.children_eq_nil h]
  exact List.forall_mem_nil _

end Known

/-! ### Growth -/

/-- Splicing has gone from the state `s` to the state `s'`: nodes and what is remembered of kept
forests are as they were, and nothing has been found for forests from `bound` on. -/
structure Extends (bound : Nat) (s s' : Splicing K V) : Prop where
  /-- No node is changed. -/
  getElem?_nodes : ∀ (m : Nat) n, s.graph.nodes[m]? = some n → s'.graph.nodes[m]? = some n
  /-- What kept forests have become is not forgotten. -/
  lookup_kept : ∀ i m, s.kept.lookup i = some m → s'.kept.lookup i = some m
  /-- Nothing is found for large numbers. -/
  lookup_kept_of_le : ∀ i, bound ≤ i → s'.kept.lookup i = s.kept.lookup i

namespace Extends

variable {bound i m : Nat} {nodeOf : Nat → Nat}

omit [DecidableEq K] in
theorem refl (bound : Nat) (s : Splicing K V) : Extends bound s s :=
  ⟨fun _ _ h => h, fun _ _ h => h, fun _ _ => rfl⟩

omit [DecidableEq K] in
theorem trans (h : Extends bound s s') (h' : Extends bound s' s'') : Extends bound s s'' where
  getElem?_nodes m n hn := h'.getElem?_nodes m n (h.getElem?_nodes m n hn)
  lookup_kept i m hm := h'.lookup_kept i m (h.lookup_kept i m hm)
  lookup_kept_of_le i hi := (h'.lookup_kept_of_le i hi).trans (h.lookup_kept_of_le i hi)

omit [DecidableEq K] in
theorem mono (h : Extends bound s s') {bound' : Nat} (hle : bound ≤ bound') :
    Extends bound' s s' :=
  { h with lookup_kept_of_le := fun i hi => h.lookup_kept_of_le i (Nat.le_trans hle hi) }

omit [DecidableEq K] in
theorem rememberReplaced (bound : Nat) (s : Splicing K V) (place : Nat × Nat)
    (lists : List (List Nat)) : Extends bound s (s.rememberReplaced place lists) :=
  ⟨fun _ _ h => h, fun _ _ h => h, fun _ _ => rfl⟩

omit [DecidableEq K] in
/-- Nothing is forgotten if it is remembered for the first time what a forest has become, possibly
after nodes were added. -/
theorem rememberKept {graph : ForestGraph (Symbol K V)} (hnone : s.kept.lookup i = none)
    (hgraph : ∀ (m : Nat) n, s.graph.nodes[m]? = some n → graph.nodes[m]? = some n) (m : Nat) :
    Extends (i + 1) s (Splicing.rememberKept { s with graph } i m) where
  getElem?_nodes := hgraph
  lookup_kept j m' hj := by
    have hne : j ≠ i := fun heq => by
      rw [heq, hnone] at hj
      cases hj
    exact (lookup_cons_eq_ite i m s.kept j).trans (by rw [if_neg hne, hj])
  lookup_kept_of_le j hj := (lookup_cons_eq_ite i m s.kept j).trans (if_neg (by omega))

theorem node?_eq (h : Extends bound s s') (hm : s.node? t g i = some m) :
    s'.node? t g i = some m := by
  rw [node?, Option.bind_eq_some_iff] at hm ⊢
  obtain ⟨n, hn, hm⟩ := hm
  refine ⟨n, hn, ?_⟩
  by_cases hleaf : n.isLeaf
  · rwa [if_pos hleaf] at hm ⊢
  · rw [if_neg hleaf] at hm ⊢
    exact h.lookup_kept i m hm

theorem names (h : Extends bound s s') (hnames : s'.Names t g nodeOf) : s.Names t g nodeOf :=
  fun i m hm => hnames i m (h.node?_eq hm)

theorem settled (h : Extends bound s s') (hi : s.Settled t g i) : s'.Settled t g i :=
  fun j n hreach hn => (hi j n hreach hn).imp_right fun hnode hway =>
    (hnode hway).imp fun _ => h.node?_eq

end Extends

/-! ### The invariant -/

/-- What has been remembered is right. -/
structure Valid (t : SpliceTable K V) (g : ForestGraph K) (s : Splicing K V) : Prop where
  /-- The leaves come first. -/
  getElem?_leaves : ∀ (m : Nat) entry, t.outputs[m]? = some entry →
    s.graph.nodes[m]? = some ⟨.value entry.2, [[]]⟩
  /-- A kept forest is remembered after all below it. -/
  settled_kept : ∀ i m, s.kept.lookup i = some m → s.Settled t g i
  /-- A kept leaf has become the leaf of its key. -/
  leafNode?_eq : ∀ (i m : Nat) n, s.kept.lookup i = some m → g.nodes[i]? = some n → n.isLeaf →
    leafNode? t n.label = some m
  /-- Any other kept forest has become a node with spliced alternatives. -/
  getElem?_kept : ∀ (i m : Nat) n, s.kept.lookup i = some m → g.nodes[i]? = some n → ¬n.isLeaf →
    ∀ nodeOf, s.Names t g nodeOf →
      s.graph.nodes[m]? = some ⟨.rule n.label, g.splicedAlternatives t.flag? nodeOf n⟩
  /-- No two kept forests but leaves have become the same node. -/
  eq_of_kept : ∀ (i j m : Nat) n n', s.kept.lookup i = some m → s.kept.lookup j = some m →
    g.nodes[i]? = some n → g.nodes[j]? = some n' → ¬n.isLeaf → ¬n'.isLeaf → i = j
  /-- An alternative is remembered after all below it. -/
  settled_replaced : ∀ (i k : Nat) lists n children, s.replaced.lookup (i, k) = some lists →
    g.nodes[i]? = some n → n.alternatives[k]? = some children → ∀ c ∈ children, s.Settled t g c
  /-- What takes the place of an alternative is what the recursion on nodes gives. -/
  replaced_eq : ∀ (i k : Nat) lists n children, s.replaced.lookup (i, k) = some lists →
    g.nodes[i]? = some n → n.alternatives[k]? = some children → ∀ nodeOf, s.Names t g nodeOf →
      lists = (choices (children.map (g.replacements t.flag? nodeOf))).map List.flatten

theorem valid_start (t : SpliceTable K V) (g : ForestGraph K) : Valid t g (start t) where
  getElem?_leaves m entry h := by rw [getElem?_nodes_start, h, Option.map_some]
  settled_kept := nofun
  leafNode?_eq := nofun
  getElem?_kept := nofun
  eq_of_kept := nofun
  settled_replaced := nofun
  replaced_eq := nofun

namespace Valid

variable {i m : Nat} {n : ForestNode K} {nodeOf : Nat → Nat}

theorem lt_size_of_node? (h : Valid t g s) (hm : s.node? t g i = some m) : m < s.graph.size := by
  suffices hnode : ∃ n, s.graph.nodes[m]? = some n by
    obtain ⟨n, hn⟩ := hnode
    exact (Array.getElem?_eq_some_iff.1 hn).1
  rw [node?, Option.bind_eq_some_iff] at hm
  obtain ⟨n, hn, hm⟩ := hm
  split at hm
  · obtain ⟨entry, hentry, -, -⟩ := exists_of_leafNode?_eq_some hm
    exact ⟨_, h.getElem?_leaves m entry hentry⟩
  · next hleaf => exact ⟨_, h.getElem?_kept i m n hm hn hleaf _ (names_getD s t g)⟩

theorem lt_size_of_mem_replacements (h : Valid t g s) (hi : s.Settled t g i)
    (hnames : s.Names t g nodeOf) {nodes : List Nat}
    (hnodes : nodes ∈ g.replacements t.flag? nodeOf i) (hm : m ∈ nodes) : m < s.graph.size := by
  obtain ⟨j, n, hreach, hn, hway, rfl⟩ := ForestGraph.exists_of_mem_replacements hnodes hm
  obtain ⟨m', hm'⟩ := (hi j n hreach hn).2 hway
  rw [hnames j m' hm']
  exact h.lt_size_of_node? hm'

/-! ### Remembering more -/

/-- What takes the place of an alternative may be remembered if all below it is settled. -/
theorem rememberReplaced (h : Valid t g s) {k : Nat} {children : List Nat}
    {lists : List (List Nat)} (hn : g.nodes[i]? = some n)
    (hchildren : n.alternatives[k]? = some children) (hsettled : ∀ c ∈ children, s.Settled t g c)
    (hlists : ∀ nodeOf, s.Names t g nodeOf →
      lists = (choices (children.map (g.replacements t.flag? nodeOf))).map List.flatten) :
    Valid t g (s.rememberReplaced (i, k) lists) := by
  refine { h with
    settled_replaced := fun j l lists' n' children' hlookup hn' hchildren' => ?_
    replaced_eq := fun j l lists' n' children' hlookup hn' hchildren' => ?_ } <;>
  rcases eq_or_of_lookup_cons_eq_some hlookup with ⟨heq, rfl⟩ | hold
  · cases heq
    cases hn.symm.trans hn'
    cases hchildren.symm.trans hchildren'
    exact hsettled
  · exact h.settled_replaced j l lists' n' children' hold hn' hchildren'
  · cases heq
    cases hn.symm.trans hn'
    cases hchildren.symm.trans hchildren'
    exact hlists
  · exact h.replaced_eq j l lists' n' children' hold hn' hchildren'

/-- What a forest has become is remembered, possibly after nodes were added. A leaf has become that
of its key, any other forest a new node with spliced alternatives. -/
theorem of_kept_eq_cons (h : Valid t g s) (hextends : Extends (i + 1) s s')
    (hkept : s'.kept = (i, m) :: s.kept) (hreplaced : s'.replaced = s.replaced)
    (hn : g.nodes[i]? = some n) (hsettled : s'.Settled t g i)
    (hleaf : n.isLeaf → leafNode? t n.label = some m)
    (hnode : ¬n.isLeaf → s.graph.size ≤ m ∧ ∀ nodeOf, s'.Names t g nodeOf →
      s'.graph.nodes[m]? = some ⟨.rule n.label, g.splicedAlternatives t.flag? nodeOf n⟩) :
    Valid t g s' := by
  have hlookup : ∀ j m', s'.kept.lookup j = some m' →
      (j = i ∧ m' = m) ∨ s.kept.lookup j = some m' := fun j m' hj =>
    eq_or_of_lookup_cons_eq_some (hkept ▸ hj)
  -- The node is new, so no other forest has become it.
  have hfresh : ∀ j n', s.kept.lookup j = some m → g.nodes[j]? = some n' → ¬n'.isLeaf →
      n.isLeaf := fun j n' hj hn' hleaf' => by
    by_contra hleaf
    have hlt := h.lt_size_of_node? ((node?_of_not_isLeaf s hn' hleaf').trans hj)
    exact Nat.not_lt.2 (hnode hleaf).1 hlt
  refine
    { getElem?_leaves := fun k entry hentry =>
        hextends.getElem?_nodes k _ (h.getElem?_leaves k entry hentry)
      settled_kept := fun j m' hj => ?_
      leafNode?_eq := fun j m' n' hj hn' hleaf' => ?_
      getElem?_kept := fun j m' n' hj hn' hleaf' nodeOf hnames => ?_
      eq_of_kept := fun j j' m' n' n'' hj hj' hn' hn'' hleaf' hleaf'' => ?_
      settled_replaced := fun j k lists n' children hj hn' hchildren c hc => ?_
      replaced_eq := fun j k lists n' children hj hn' hchildren nodeOf hnames => ?_ }
  · rcases hlookup j m' hj with ⟨rfl, rfl⟩ | hj
    · exact hsettled
    · exact hextends.settled (h.settled_kept j m' hj)
  · rcases hlookup j m' hj with ⟨rfl, rfl⟩ | hj
    · cases hn.symm.trans hn'
      exact hleaf hleaf'
    · exact h.leafNode?_eq j m' n' hj hn' hleaf'
  · rcases hlookup j m' hj with ⟨rfl, rfl⟩ | hj
    · cases hn.symm.trans hn'
      exact (hnode hleaf').2 nodeOf hnames
    · exact hextends.getElem?_nodes m' _
        (h.getElem?_kept j m' n' hj hn' hleaf' nodeOf (hextends.names hnames))
  · rcases hlookup j m' hj with ⟨rfl, rfl⟩ | hold <;>
      rcases hlookup j' _ hj' with ⟨rfl, hm⟩ | hold'
    · rfl
    · cases hn.symm.trans hn'
      exact absurd (hfresh j' n'' hold' hn'' hleaf'') hleaf'
    · cases hn.symm.trans hn''
      exact absurd (hfresh j n' (hm ▸ hold) hn' hleaf') hleaf''
    · exact h.eq_of_kept j j' m' n' n'' hold hold' hn' hn'' hleaf' hleaf''
  · rw [hreplaced] at hj
    exact hextends.settled (h.settled_replaced j k lists n' children hj hn' hchildren c hc)
  · rw [hreplaced] at hj
    exact h.replaced_eq j k lists n' children hj hn' hchildren nodeOf (hextends.names hnames)

end Valid

end Splicing

end ChartParsing
