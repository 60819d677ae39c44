import ChartParsing.Descent
import ChartParsing.Proofs.Forest.Unfolding
import ChartParsing.Splice.Table

/-!
# Forests that cannot be spliced

A leaf needs a key with a terminal rule and any other forest a key with a rule, all the way down; a
root needs a key that has a rule and is not temporary. What fails is a fault, and the first one is
found in preorder: a forest before what lies below it, alternatives and children in order.

## Main definitions

* `SpliceTable.ownFault?`, `SpliceTable.rootFault?`: what is wrong with a node itself, and with the
  key of a root.
* `Forest.fault?`, `ForestGraph.fault?`: the first fault in a forest, and in that of a node.
* `SpliceTable.firstFault?`: the first fault below the roots of shared forests.
* `Forest.Faultless`: forests without faults, by what splicing does with them.

## Main results

* `Forest.faultless_of_fault?_eq_none`: where no fault is found, there is none.
* `ForestGraph.fault?_eq`: the first fault below a node, from those below its children.
* `ForestGraph.fault?_eq_none_iff`: there is none if nothing is wrong with any node below.
* `SpliceTable.firstFault?_eq_none_iff`: shared forests without faults.
-/

namespace ChartParsing

universe u v w

variable {K : Type u} {V : Type v} [DecidableEq K] {t : SpliceTable K V}

theorem findSome?_cons_eq_or {α : Type u} {β : Type v} (f : α → Option β) (a : α) (l : List α) :
    (a :: l).findSome? f = (f a).or (l.findSome? f) := by
  rw [List.findSome?_cons]
  cases f a <;> rfl

theorem findSome?_filterMap {α : Type u} {β : Type v} {γ : Type w} (f : α → Option β)
    (g : β → Option γ) (l : List α) :
    (l.filterMap f).findSome? g = l.findSome? fun a => (f a).bind g := by
  induction l with
  | nil => rfl
  | cons a l ih =>
    rw [List.filterMap_cons, findSome?_cons_eq_or, ← ih]
    cases f a with
    | none => rfl
    | some b => exact findSome?_cons_eq_or g b (l.filterMap f)

theorem findSome?_flatten {α : Type u} {β : Type v} (f : α → Option β) (lists : List (List α)) :
    lists.flatten.findSome? f = lists.findSome? (List.findSome? f) := by
  induction lists with
  | nil => rfl
  | cons l lists ih => rw [List.flatten_cons, List.findSome?_append, ih, findSome?_cons_eq_or]

/-! ### Faults -/

namespace SpliceTable

/-- The first fault in a forest with the given label, when the children have the given first
faults. -/
def fault? (t : SpliceTable K V) (label : K)
    (alternatives : List (List (Option (SpliceError K)))) : Option (SpliceError K) :=
  if alternatives.all List.isEmpty then
    match t.output? label with
    | some _ => none
    | none => some (.valuelessLeaf label)
  else
    match t.flag? label with
    | some _ => alternatives.flatten.findSome? id
    | none => some (.undefinedKey label)

/-- What is wrong with the key of a root. -/
def rootFault? (t : SpliceTable K V) (label : K) : Option (SpliceError K) :=
  match t.flag? label with
  | some true => some (.temporaryRoot label)
  | some false => none
  | none => some (.undefinedKey label)

theorem rootFault?_eq_none_iff {label : K} :
    t.rootFault? label = none ↔ t.flag? label = some false := by
  rw [rootFault?]
  split <;> simp_all

end SpliceTable

/-- The first fault in a forest. -/
def Forest.fault? (t : SpliceTable K V) (f : Forest K) : Option (SpliceError K) :=
  f.fold t.fault?

namespace Forest

variable {label : K} {alternatives : List (List (Forest K))}

/-- The first fault in a forest is that of its own key, or else the first one below. -/
theorem fault?_node (t : SpliceTable K V) (label : K) (alternatives : List (List (Forest K))) :
    (node label alternatives).fault? t =
      if (node label alternatives).isLeaf then
        match t.output? label with
        | some _ => none
        | none => some (.valuelessLeaf label)
      else
        match t.flag? label with
        | some _ => alternatives.findSome? (List.findSome? (fault? t))
        | none => some (.undefinedKey label) := by
  rw [fault?, fold_node, SpliceTable.fault?, all_isEmpty_map _ label]
  simp only [findSome?_flatten, List.findSome?_map, Function.comp_def]
  rfl

theorem fault?_of_isLeaf (h : (node label alternatives).isLeaf) :
    (node label alternatives).fault? t = none ↔ (t.output? label).isSome := by
  rw [fault?_node, if_pos h]
  cases t.output? label <;> simp

theorem fault?_of_not_isLeaf (h : ¬(node label alternatives).isLeaf) :
    (node label alternatives).fault? t = none ↔ (t.flag? label).isSome ∧
      ∀ children ∈ alternatives, ∀ child ∈ children, child.fault? t = none := by
  rw [fault?_node, if_neg h]
  cases t.flag? label <;> simp [List.findSome?_eq_none_iff]

/-- Forests without faults. -/
inductive Faultless (t : SpliceTable K V) : Forest K → Prop where
  /-- A leaf has a key with an output. -/
  | leaf {label : K} {alternatives : List (List (Forest K))} {value : V}
      (isLeaf : (node label alternatives).isLeaf) (output_eq : t.output? label = some value) :
      Faultless t (node label alternatives)
  /-- A forest with a temporary key gives way to its children. -/
  | temporary {label : K} {alternatives : List (List (Forest K))}
      (not_isLeaf : ¬(node label alternatives).isLeaf) (flag_eq : t.flag? label = some true)
      (each : ∀ children ∈ alternatives, ∀ child ∈ children, Faultless t child) :
      Faultless t (node label alternatives)
  /-- Any other forest is kept. -/
  | kept {label : K} {alternatives : List (List (Forest K))}
      (not_isLeaf : ¬(node label alternatives).isLeaf) (flag_eq : t.flag? label = some false)
      (each : ∀ children ∈ alternatives, ∀ child ∈ children, Faultless t child) :
      Faultless t (node label alternatives)

theorem faultless_of_fault?_eq_none {f : Forest K} (h : f.fault? t = none) : f.Faultless t := by
  induction f using forall_of_children with
  | step label alternatives ih =>
    by_cases hleaf : (node label alternatives).isLeaf
    · obtain ⟨value, hvalue⟩ := Option.isSome_iff_exists.1 ((fault?_of_isLeaf hleaf).1 h)
      exact .leaf hleaf hvalue
    · obtain ⟨hflag, hchildren⟩ := (fault?_of_not_isLeaf hleaf).1 h
      have heach : ∀ children ∈ alternatives, ∀ child ∈ children, child.Faultless t :=
        fun children hmem child hchild =>
          ih children hmem child hchild (hchildren children hmem child hchild)
      obtain ⟨flag, hflag⟩ := Option.isSome_iff_exists.1 hflag
      cases flag with
      | true => exact .temporary hleaf hflag heach
      | false => exact .kept hleaf hflag heach

end Forest

/-! ### Faults of nodes -/

/-- What is wrong with a node itself: with the key of a leaf, that it has no output, with any other
key, that it has no rule. -/
def SpliceTable.ownFault? (t : SpliceTable K V) (n : ForestNode K) : Option (SpliceError K) :=
  if n.isLeaf then
    match t.output? n.label with
    | some _ => none
    | none => some (.valuelessLeaf n.label)
  else
    match t.flag? n.label with
    | some _ => none
    | none => some (.undefinedKey n.label)

namespace ForestGraph

variable {g : ForestGraph K} {i : Nat} {n : ForestNode K}

/-- The first fault in the forest of a node. -/
def fault? (g : ForestGraph K) (t : SpliceTable K V) (i : Nat) : Option (SpliceError K) :=
  (g.forestAt? i).bind (Forest.fault? t)

/-- The first fault below a node is its own, or else the first one below its children. -/
theorem fault?_eq (hn : g.nodes[i]? = some n) :
    g.fault? t i = (t.ownFault? n).or (n.children.findSome? (g.fault? t)) := by
  have hchildren : (n.alternatives.map (List.filterMap g.forestAt?)).findSome?
      (List.findSome? (Forest.fault? t)) = n.children.findSome? (g.fault? t) := by
    rw [← findSome?_flatten, ← List.filterMap_flatten, findSome?_filterMap]
    rfl
  rw [fault?, forestAt?_eq, hn, Option.map_some, Option.bind_some, Forest.fault?_node,
    isLeaf_unfolded hn, hchildren, SpliceTable.ownFault?]
  by_cases hleaf : n.isLeaf
  · rw [if_pos hleaf, if_pos hleaf, ForestNode.children_eq_nil hleaf, List.findSome?_nil,
      Option.or_none]
  · rw [if_neg hleaf, if_neg hleaf]
    cases t.flag? n.label <;> rfl

theorem fault?_eq_none_of_eq_none (hn : g.nodes[i]? = none) : g.fault? t i = none := by
  rw [fault?, forestAt?_eq, hn]
  rfl

/-- There is no fault in the forest of a node exactly if nothing is wrong with any node below it. -/
theorem fault?_eq_none_iff :
    g.fault? t i = none ↔
      ∀ j n, Reaches g.children i j → g.nodes[j]? = some n → t.ownFault? n = none := by
  constructor
  · intro h j n hreach hn
    induction hreach with
    | refl i =>
      rw [fault?_eq hn, Option.or_eq_none_iff] at h
      exact h.1
    | @step i c _ edge _ ih =>
      obtain ⟨n', hn'⟩ := exists_node_of_mem_children edge
      rw [fault?_eq hn', Option.or_eq_none_iff, List.findSome?_eq_none_iff] at h
      exact ih (h.2 c (children_eq hn' ▸ edge)) hn
  · intro h
    induction i using Nat.strongRecOn with
    | ind i ih =>
      cases hn : g.nodes[i]? with
      | none => exact fault?_eq_none_of_eq_none hn
      | some n =>
        rw [fault?_eq hn, Option.or_eq_none_iff, List.findSome?_eq_none_iff]
        refine ⟨h i n (.refl i) hn, fun c hc => ?_⟩
        rw [← children_eq hn] at hc
        exact ih c (lt_of_mem_children hc) fun j n hreach => h j n (.step hc hreach)

end ForestGraph

namespace SpliceTable

/-- The first fault below the roots, in order; for each root, its own key comes first. -/
def firstFault? (t : SpliceTable K V) (fs : SharedForests K) : Option (SpliceError K) :=
  fs.toForests.findSome? fun f => (t.rootFault? f.label).or (f.fault? t)

/-- There is no fault below the roots exactly if no root is temporary and no forest has a fault. -/
theorem firstFault?_eq_none_iff {fs : SharedForests K} :
    t.firstFault? fs = none ↔
      ∀ f ∈ fs.toForests, t.flag? f.label = some false ∧ f.fault? t = none := by
  simp only [firstFault?, List.findSome?_eq_none_iff, Option.or_eq_none_iff,
    rootFault?_eq_none_iff]

end SpliceTable

end ChartParsing
