import ChartParsing.Proofs.Splice.Memory

/-!
# How splicing runs

A step of splicing fails with the first fault below the nodes that it goes through. If there is
none, it leads to a valid state in which they are settled, and what it finds is what the recursion
on nodes gives. This holds of a leaf, passes from children to alternatives, to the node that they
belong to, and along lists, and so holds of all roots together.

## Main definitions

* `Splicing.Meets`: the outcome that a step has to have.

## Main results

* `Splicing.meets_forEach`: one step after another.
* `Splicing.meets_replaceAlternatives`, `Splicing.meets_keep`: from the children to the node.
* `Splicing.meets_replaceChild`: what is found for a child, by induction on the depth.
* `Splicing.meets_spliceRoots`: what is found for the roots.
-/

namespace ChartParsing

universe u v w

variable {K : Type u} {V : Type v} [DecidableEq K]

namespace ForestGraph

variable {t : SpliceTable K V} {g : ForestGraph K} {i : Nat} {n : ForestNode K}

theorem fault?_of_isLeaf (hn : g.nodes[i]? = some n) (h : n.isLeaf) :
    g.fault? t i = t.ownFault? n := by
  rw [fault?_eq hn, ForestNode.children_eq_nil h, List.findSome?_nil, Option.or_none]

private theorem fault?_of_flag? (hn : g.nodes[i]? = some n) (h : ¬n.isLeaf) {flag : Bool}
    (hflag : t.flag? n.label = some flag) :
    t.ownFault? n = none ∧ g.fault? t i = n.children.findSome? (g.fault? t) := by
  have hown : t.ownFault? n = none := by
    rw [SpliceTable.ownFault?, if_neg h, hflag]
  exact ⟨hown, by rw [fault?_eq hn, hown, Option.none_or]⟩

/-- What is wrong with a root: with its key, or else below it. -/
def rootFault? (g : ForestGraph K) (t : SpliceTable K V) (r : Nat) : Option (SpliceError K) :=
  g.nodes[r]?.bind fun n => (t.rootFault? n.label).or (g.fault? t r)

end ForestGraph

namespace Splicing

variable {t : SpliceTable K V} {g : ForestGraph K} {s s' : Splicing K V} {bound : Nat}

/-! ### Outcomes -/

/-- The outcome that a step from the state `s` through the nodes in `below` has to have: the first
fault if there is one, and else a valid state in which these nodes are settled, with the value that
belongs to any naming of what is known. -/
inductive Meets {α : Type} (t : SpliceTable K V) (g : ForestGraph K) (bound : Nat)
    (s : Splicing K V) (fault? : Option (SpliceError K)) (below : List Nat)
    (value : (Nat → Nat) → α) : Outcome K V α → Prop where
  /-- The first fault is reported. -/
  | error {e : SpliceError K} (fault_eq : fault? = some e) :
    Meets t g bound s fault? below value (.error e)
  /-- There is no fault. -/
  | ok {s' : Splicing K V} {a : α} (fault_eq : fault? = none) (valid : Valid t g s')
    (extension : Extends bound s s') (settled : ∀ c ∈ below, s'.Settled t g c)
    (value_eq : ∀ nodeOf, s'.Names t g nodeOf → a = value nodeOf) :
    Meets t g bound s fault? below value (.ok (s', a))

namespace Meets

variable {α β : Type} {fault? fault?' : Option (SpliceError K)} {below below' : List Nat}
  {value : (Nat → Nat) → α} {o : Outcome K V α}

/-- A step, and what is then done with its result, which cannot fail. -/
theorem map {bound' : Nat} {value' : (Nat → Nat) → β} {f : Splicing K V × α → Splicing K V × β}
    (h : Meets t g bound s fault? below value o) (hle : bound ≤ bound')
    (hf : ∀ s' a, Valid t g s' → Extends bound s s' → (∀ c ∈ below, s'.Settled t g c) →
      (∀ nodeOf, s'.Names t g nodeOf → a = value nodeOf) →
      Meets t g bound' s' none below' value' (.ok (f (s', a)))) :
    Meets t g bound' s fault? below' value' (o.map f) := by
  cases h with
  | error fault_eq => exact .error fault_eq
  | @ok s' a fault_eq valid extension settled value_eq =>
    have hnext := hf s' a valid extension settled value_eq
    rw [Except.map]
    generalize f (s', a) = result at hnext ⊢
    cases hnext with
    | ok _ valid' extension' settled' value_eq' =>
      exact .ok fault_eq valid' ((extension.mono hle).trans extension') settled' value_eq'

theorem map_value (h : Meets t g bound s fault? below value o) (f : α → β) :
    Meets t g bound s fault? below (fun nodeOf => f (value nodeOf))
      (o.map fun (s, a) => (s, f a)) :=
  h.map (Nat.le_refl bound) fun s' _ hvalid _ hsettled hvalue =>
    .ok rfl hvalid (.refl bound s') hsettled fun nodeOf hnames => congrArg f (hvalue nodeOf hnames)

omit [DecidableEq K] in
theorem map_map {δ : Type} (o : Outcome K V α) (f : Splicing K V × α → Splicing K V × β)
    (f' : Splicing K V × β → Splicing K V × δ) : (o.map f).map f' = o.map fun x => f' (f x) := by
  cases o <;> rfl

theorem mono (h : Meets t g bound s fault? below value o) {bound' : Nat} (hle : bound ≤ bound') :
    Meets t g bound' s fault? below value o := by
  cases h with
  | error fault_eq => exact .error fault_eq
  | ok fault_eq valid extension settled value_eq =>
    exact .ok fault_eq valid (extension.mono hle) settled value_eq

theorem congr_value {value' : (Nat → Nat) → α} (h : Meets t g bound s fault? below value o)
    (heq : ∀ nodeOf, value nodeOf = value' nodeOf) : Meets t g bound s fault? below value' o :=
  funext heq ▸ h

theorem of_children {i : Nat} {n : ForestNode K} (hn : g.nodes[i]? = some n)
    (hown : t.ownFault? n = none) (hway : n.GivesWay t.flag?)
    (h : Meets t g bound s fault? n.children value o) :
    Meets t g bound s fault? [i] value o := by
  cases h with
  | error fault_eq => exact .error fault_eq
  | ok fault_eq valid extension settled value_eq =>
    exact .ok fault_eq valid extension (List.forall_mem_singleton.2
      (.of_children hn hown (fun h => absurd hway h) settled)) value_eq

theorem known {i m : Nat} (hfault : fault? = none) (hvalid : Valid t g s')
    (hextends : Extends bound s s') (hsettled : s'.Settled t g i)
    (hm : s'.node? t g i = some m) :
    Meets t g bound s fault? [i] (fun nodeOf => nodeOf i) (.ok (s', m)) :=
  .ok hfault hvalid hextends (List.forall_mem_singleton.2 hsettled)
    fun _ hnames => (hnames i m hm).symm

end Meets

/-! ### Steps one after another -/

section ForEach

variable {α : Type w} {β γ : Type} {step : Splicing K V → α → Outcome K V β} (join : γ → β → γ)

omit [DecidableEq K] in
theorem forEach_cons (found : γ) (s : Splicing K V) (item : α) (items : List α) :
    forEach step join found s (item :: items) =
      (step s item).bind fun (s, more) => forEach step join (join found more) s items := by
  rw [forEach, List.foldlM_cons]
  dsimp only
  cases step s item <;> rfl

/-- Steps for the items of a list report the first fault of all items, or find everything that the
steps find. -/
theorem meets_forEach {items : List α} {fault? : α → Option (SpliceError K)}
    {below : α → List Nat} {value : (Nat → Nat) → α → β}
    (hstep : ∀ item ∈ items, ∀ s, Valid t g s →
      Meets t g bound s (fault? item) (below item) (value · item) (step s item))
    (found : γ) (hs : Valid t g s) :
    Meets t g bound s (items.findSome? fault?) (items.flatMap below)
      (fun nodeOf => items.foldl (fun found item => join found (value nodeOf item)) found)
      (forEach step join found s items) := by
  induction items generalizing s found with
  | nil => exact .ok rfl hs (.refl bound s) (by simp) fun _ _ => rfl
  | cons item items ih =>
    rw [List.forall_mem_cons] at hstep
    rw [forEach_cons, List.findSome?_cons]
    have hfirst := hstep.1 s hs
    generalize step s item = o at hfirst
    cases hfirst with
    | error fault_eq =>
      rw [fault_eq]
      exact .error rfl
    | @ok s' a fault_eq valid extension settled value_eq =>
      have hrest := ih hstep.2 (join found a) valid
      rw [fault_eq]
      show Meets _ _ _ _ _ _ _ (forEach step join (join found a) s' items)
      generalize forEach step join (join found a) s' items = o at hrest
      cases hrest with
      | error fault_eq' => exact .error fault_eq'
      | ok fault_eq' valid' extension' settled' value_eq' =>
        refine .ok fault_eq' valid' (extension.trans extension') ?_ fun nodeOf hnames => ?_
        · rw [List.flatMap_cons, List.forall_mem_append]
          exact ⟨fun c hc => extension'.settled (settled c hc), settled'⟩
        · rw [value_eq' nodeOf hnames, value_eq nodeOf (extension'.names hnames), List.foldl_cons]

end ForEach

/-! ### Leaves -/

section Nodes

variable {i : Nat} {n : ForestNode K}

theorem meets_leaf (hs : Valid t g s) (hn : g.nodes[i]? = some n) (h : n.isLeaf) :
    Meets t g bound s (g.fault? t i) [i] (fun nodeOf => nodeOf i) (leaf t s n.label) := by
  rw [leaf, ForestGraph.fault?_of_isLeaf hn h]
  cases hm : leafNode? t n.label with
  | none => exact .error (by rw [SpliceTable.ownFault?, if_pos h, output?_eq_none_of_leafNode? hm])
  | some m =>
    obtain ⟨hown, hsettled⟩ := Settled.of_leafNode? (s := s) hn h hm
    exact .known hown hs (.refl bound s) hsettled ((node?_of_isLeaf s hn h).trans hm)

/-! ### From the children to the node -/

variable {child : Splicing K V → Nat → Outcome K V (List (List Nat))}

/-- What takes the place of an alternative, from what does so for its children. -/
theorem meets_replaceAlternative (hs : Valid t g s) (hn : g.nodes[i]? = some n) {k : Nat}
    {children : List Nat} (hchildren : n.alternatives[k]? = some children)
    (hchild : ∀ c ∈ children, ∀ s, Valid t g s → Meets t g bound s (g.fault? t c) [c]
      (fun nodeOf => g.replacements t.flag? nodeOf c) (child s c)) :
    Meets t g bound s (children.findSome? (g.fault? t)) children
      (fun nodeOf => (choices (children.map (g.replacements t.flag? nodeOf))).map List.flatten)
      (replaceAlternative child s (i, k) children) := by
  rw [replaceAlternative]
  cases hlookup : s.replaced.lookup (i, k) with
  | some lists =>
    have hsettled := hs.settled_replaced i k lists n children hlookup hn hchildren
    refine .ok (List.findSome?_eq_none_iff.2 fun c hc => (hsettled c hc).fault?_eq_none) hs
      (.refl bound s) hsettled (hs.replaced_eq i k lists n children hlookup hn hchildren)
  | none =>
    refine (meets_forEach appendEach hchild [[]] hs).map (Nat.le_refl bound)
      fun s' lists hvalid _ hsettled hlists => ?_
    rw [List.flatMap_singleton'] at hsettled
    have hlists' : ∀ nodeOf, s'.Names t g nodeOf →
        lists = (choices (children.map (g.replacements t.flag? nodeOf))).map List.flatten :=
      fun nodeOf hnames => by
        rw [hlists nodeOf hnames, ← List.foldl_map, foldl_appendEach]
        simp [appendEach]
    exact .ok rfl (hvalid.rememberReplaced hn hchildren hsettled hlists')
      (.rememberReplaced bound s' (i, k) lists) hsettled hlists'

/-- What takes the place of the alternatives of a node, from what does so for its children. -/
theorem meets_replaceAlternatives (hs : Valid t g s) (hn : g.nodes[i]? = some n)
    (hchild : ∀ c ∈ n.children, ∀ s, Valid t g s → Meets t g bound s (g.fault? t c) [c]
      (fun nodeOf => g.replacements t.flag? nodeOf c) (child s c)) :
    Meets t g bound s (n.children.findSome? (g.fault? t)) n.children
      (fun nodeOf => g.splicedAlternatives t.flag? nodeOf n) (replaceAlternatives child s i n) := by
  have hmem : ∀ item ∈ n.alternatives.zipIdx, n.alternatives[item.2]? = some item.1 :=
    fun item hitem => List.mk_mem_zipIdx_iff_getElem?.1 hitem
  have hmeets := meets_forEach (· ++ ·)
    (fun item hitem s hs => meets_replaceAlternative hs hn (hmem item hitem) fun c hc =>
      hchild c (List.mem_flatten.2 ⟨item.1, List.mem_of_getElem? (hmem item hitem), hc⟩)) [] hs
  -- The places of the alternatives do not matter for what is found.
  have hfst : n.alternatives.zipIdx.map Prod.fst = n.alternatives := List.zipIdx_map_fst 0 _
  have hfault : n.alternatives.zipIdx.findSome? (fun item => item.1.findSome? (g.fault? t)) =
      n.children.findSome? (g.fault? t) := by
    rw [ForestNode.children, findSome?_flatten, ← congrArg (List.findSome? _) hfst,
      List.findSome?_map]
    rfl
  have hbelow : n.alternatives.zipIdx.flatMap (fun item => item.1) = n.children := by
    rw [ForestNode.children, ← congrArg List.flatten hfst, ← List.flatMap_def]
  rw [hfault, hbelow] at hmeets
  refine hmeets.congr_value fun nodeOf => ?_
  rw [ForestGraph.splicedAlternatives, spliceAlternatives, List.flatMap_map,
    List.flatMap_eq_foldl, ← hfst, List.foldl_map, hfst]

theorem meets_rememberLeaf (hs : Valid t g s) (hnone : s.kept.lookup i = none)
    (hn : g.nodes[i]? = some n) (h : n.isLeaf) {m : Nat} (hm : leafNode? t n.label = some m) :
    Meets t g (i + 1) s none [i] (fun nodeOf => nodeOf i) (.ok (s.rememberKept i m, m)) := by
  have hextends := Extends.rememberKept hnone (fun _ _ h => h) m
  have hsettled := (Settled.of_leafNode? (s := s.rememberKept i m) hn h hm).2
  exact .known rfl (hs.of_kept_eq_cons hextends rfl rfl hn hsettled (fun _ => hm) (absurd h))
    hextends hsettled ((node?_of_isLeaf _ hn h).trans hm)

/-- Making a node with spliced alternatives, and remembering it for the forest that is kept. -/
theorem meets_rememberNode (hs : Valid t g s) (hnone : s.kept.lookup i = none)
    (hn : g.nodes[i]? = some n) (h : ¬n.isLeaf) (hown : t.ownFault? n = none)
    (hsettled : ∀ c ∈ n.children, s.Settled t g c) {lists : List (List Nat)}
    (hlists : ∀ nodeOf, s.Names t g nodeOf → lists = g.splicedAlternatives t.flag? nodeOf n) :
    Meets t g (i + 1) s none [i] (fun nodeOf => nodeOf i)
      (.ok ((s.push ⟨.rule n.label, lists⟩).1.rememberKept i s.graph.size, s.graph.size)) := by
  have hnew : (s.graph.push ⟨.rule n.label, lists⟩).nodes[s.graph.size]? =
      some ⟨.rule n.label, lists⟩ := by
    refine ForestGraph.getElem?_nodes_push_size fun m hm => ?_
    obtain ⟨nodes, hnodes, hm⟩ := List.mem_flatten.1 hm
    rw [hlists _ (names_getD s t g)] at hnodes
    obtain ⟨c, hc, nodes', hnodes', hm'⟩ := ForestGraph.exists_of_mem_splicedAlternatives hnodes hm
    exact hs.lt_size_of_mem_replacements (hsettled c hc) (names_getD s t g) hnodes' hm'
  have hold : ∀ (m : Nat) n', s.graph.nodes[m]? = some n' →
      (s.graph.push ⟨.rule n.label, lists⟩).nodes[m]? = some n' := fun m n' hn' =>
    (ForestGraph.getElem?_nodes_push_of_lt (Array.getElem?_eq_some_iff.1 hn').1 _).trans hn'
  have hextends := Extends.rememberKept hnone hold s.graph.size
  have hm := (node?_of_not_isLeaf (t := t)
    ((s.push ⟨.rule n.label, lists⟩).1.rememberKept i s.graph.size) hn h).trans
      ((lookup_cons_eq_ite i s.graph.size s.kept i).trans (if_pos rfl))
  have hsettled' := Settled.of_children hn hown (fun _ => ⟨_, hm⟩)
    fun c hc => hextends.settled (hsettled c hc)
  exact .known rfl (hs.of_kept_eq_cons hextends rfl rfl hn hsettled' (absurd · h)
    fun _ => ⟨Nat.le_refl _, fun nodeOf hnames => hlists nodeOf (hextends.names hnames) ▸ hnew⟩)
    hextends hsettled' hm

/-- The node that a kept forest becomes is made from what takes the place of its children. -/
theorem meets_keep (hs : Valid t g s) (hn : g.nodes[i]? = some n)
    (hflag : t.flag? n.label = some false)
    (hchild : ∀ c ∈ n.children, ∀ s, Valid t g s → Meets t g i s (g.fault? t c) [c]
      (fun nodeOf => g.replacements t.flag? nodeOf c) (child s c)) :
    Meets t g (i + 1) s (g.fault? t i) [i] (fun nodeOf => nodeOf i) (keep t child s i n) := by
  rw [keep]
  cases hlookup : s.kept.lookup i with
  | some m =>
    have hsettled := hs.settled_kept i m hlookup
    have hnode : s.node? t g i = some m := by
      by_cases hleaf : n.isLeaf
      · rw [node?_of_isLeaf s hn hleaf, hs.leafNode?_eq i m n hlookup hn hleaf]
      · rw [node?_of_not_isLeaf s hn hleaf, hlookup]
    exact .known hsettled.fault?_eq_none hs (.refl _ s) hsettled hnode
  | none =>
    -- The steps below the node find nothing for the node itself.
    have hnone : ∀ {s'}, Extends i s s' → s'.kept.lookup i = none := fun hextends =>
      (hextends.lookup_kept_of_le i (Nat.le_refl i)).trans hlookup
    dsimp only
    by_cases hleaf : n.isLeaf
    · rw [if_pos hleaf]
      refine (meets_leaf hs hn hleaf).map (Nat.le_succ i)
        fun s' m hvalid hextends hsettled hvalue => ?_
      obtain ⟨m', hm'⟩ := (hsettled i List.mem_cons_self i n (.refl i) hn).2 fun h => h.1 hleaf
      have hm : m = m' := (hvalue _ (names_getD s' t g)).trans (names_getD s' t g i m' hm')
      rw [node?_of_isLeaf s' hn hleaf, ← hm] at hm'
      exact meets_rememberLeaf hvalid (hnone hextends) hn hleaf hm'
    · obtain ⟨hown, hfault⟩ := ForestGraph.fault?_of_flag? (g := g) hn hleaf hflag
      rw [if_neg hleaf, Meets.map_map, hfault]
      exact (meets_replaceAlternatives hs hn hchild).map (Nat.le_succ i)
        fun s' lists hvalid hextends hsettled hlists =>
          meets_rememberNode hvalid (hnone hextends) hn hleaf hown hsettled hlists

end Nodes

/-! ### Children -/

/-- What takes the place of a child. -/
theorem meets_replaceChild {depth c : Nat} (hc : c < depth) (hs : Valid t g s) :
    Meets t g (c + 1) s (g.fault? t c) [c] (fun nodeOf => g.replacements t.flag? nodeOf c)
      (replaceChild t g depth s c) := by
  induction depth generalizing s c with
  | zero => exact absurd hc (Nat.not_lt_zero c)
  | succ depth ih =>
    rw [replaceChild]
    cases hn : g.nodes[c]? with
    | none =>
      exact .ok (ForestGraph.fault?_eq_none_of_eq_none hn) hs (.refl _ s)
        (List.forall_mem_singleton.2 (.of_eq_none hn))
        fun nodeOf _ => (ForestGraph.replacements_of_eq_none hn).symm
    | some n =>
      have hchild : ∀ c' ∈ n.children, ∀ s, Valid t g s → Meets t g c s (g.fault? t c') [c']
          (fun nodeOf => g.replacements t.flag? nodeOf c') (replaceChild t g depth s c') :=
        fun c' hc' s hs => by
          have hlt : c' < c := ForestGraph.lt_of_mem_children (ForestGraph.children_eq hn ▸ hc')
          exact (ih (by omega) hs).mono hlt
      dsimp only
      by_cases hleaf : n.isLeaf
      · rw [if_pos hleaf]
        refine ((meets_leaf hs hn hleaf).map_value fun m => [[m]]).congr_value fun nodeOf => ?_
        exact (ForestGraph.replacements_of_not_givesWay hn fun hway => hway.1 hleaf).symm
      · rw [if_neg hleaf]
        cases hflag : t.flag? n.label with
        | none =>
          refine .error ?_
          rw [ForestGraph.fault?_eq hn, SpliceTable.ownFault?, if_neg hleaf, hflag]
          rfl
        | some flag =>
          obtain ⟨hown, hfault⟩ := ForestGraph.fault?_of_flag? (g := g) hn hleaf hflag
          cases flag with
          | true =>
            rw [hfault]
            refine (Meets.of_children hn hown ⟨hleaf, hflag⟩ ((meets_replaceAlternatives hs hn
              hchild).mono (Nat.le_succ c))).congr_value fun nodeOf => ?_
            exact (ForestGraph.replacements_of_givesWay hn ⟨hleaf, hflag⟩).symm
          | false =>
            refine ((meets_keep hs hn hflag hchild).map_value fun m => [[m]]).congr_value
              fun nodeOf => ?_
            refine (ForestGraph.replacements_of_not_givesWay hn fun hway => ?_).symm
            cases hflag.symm.trans hway.2

/-! ### Roots -/

/-- What is found for a root. -/
theorem meets_spliceRoot {r : Nat} (hr : r < g.size) (hs : Valid t g s) :
    Meets t g g.size s (g.rootFault? t r) [r] (fun nodeOf => [nodeOf r])
      (spliceRoot t g s r) := by
  have hn : g.nodes[r]? = some g.nodes[r] := Array.getElem?_eq_getElem hr
  generalize g.nodes[r] = n at hn
  rw [spliceRoot, ForestGraph.rootFault?, hn, Option.bind_some, SpliceTable.rootFault?]
  dsimp only
  cases hflag : t.flag? n.label with
  | none => exact .error rfl
  | some flag =>
    cases flag with
    | true => exact .error rfl
    | false =>
      refine ((meets_keep hs hn hflag fun c hc s hs => ?_).mono hr).map_value fun m => [m]
      have hlt : c < r := ForestGraph.lt_of_mem_children (ForestGraph.children_eq hn ▸ hc)
      exact (meets_replaceChild hlt hs).mono hlt

/-- What is found for all roots. -/
theorem meets_spliceRoots {roots : List Nat} (hroots : ∀ r ∈ roots, r < g.size) :
    Meets t g g.size (start t) (roots.findSome? (g.rootFault? t)) roots
      (fun nodeOf => roots.map nodeOf)
      (forEach (spliceRoot t g) (· ++ ·) [] (start t) roots) := by
  have hmeets := meets_forEach (· ++ ·)
    (fun r hr s hs => meets_spliceRoot (t := t) (hroots r hr) hs) [] (valid_start t g)
  rw [List.flatMap_singleton'] at hmeets
  refine hmeets.congr_value fun nodeOf => ?_
  rw [← List.flatMap_eq_foldl, List.map_eq_flatMap]

end Splicing

end ChartParsing
