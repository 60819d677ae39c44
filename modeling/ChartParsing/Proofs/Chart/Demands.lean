import ChartParsing.Proofs.Chart.Joints
import Mathlib.Data.List.Forall2

/-!
# Demands for forests

The forest of an item is read off the chart by recursion: a leaf, or an alternative for each joint
with the forests of the two parts. Demands in any order give these forests. Each of them succeeds,
whatever has been built before, and changes nothing that is there; what is built in the end are the
items that can be reached from the demanded ones.

## Main definitions

* `Chart.UnfoldsTo`: the forest of an item, by recursion.
* `Chart.Gives`: the forest of an item, by demand.

## Main results

* `Chart.PartsBelow.unfoldsTo_iff`: the forest of an item is the one that its node stands for.
* `Chart.PartsBelow.gives`: a demand gives this forest, whatever has been demanded before.
* `Parser.demands_build_forests`: what demands one after another give.
-/

namespace ChartParsing

universe u v

variable {K : Type u} {V : Type v}

namespace Chart

/-! ### The forest of an item -/

/-- The relation `c.UnfoldsTo i f`: the item `i` has the forest `f`. -/
inductive UnfoldsTo (c : Chart K) : Nat → Forest K → Prop where
  /-- An item without joints has a leaf. -/
  | leaf {i : Nat} {item : Item K} (item_eq : c.item? i = some item)
      (joints_eq : item.joints = []) : UnfoldsTo c i (.node item.key [[]])
  /-- Any other item has an alternative for each joint, in order: the forests of its two parts. -/
  | node {i : Nat} {item : Item K} {left right : Joint → Forest K}
      (item_eq : c.item? i = some item) (joints_ne : item.joints ≠ [])
      (unfolds_left : ∀ j ∈ item.joints, UnfoldsTo c j.left (left j))
      (unfolds_right : ∀ j ∈ item.joints, UnfoldsTo c j.right (right j)) :
      UnfoldsTo c i (.node item.key (item.joints.map fun j => [left j, right j]))

variable {c : Chart K}

theorem UnfoldsTo.forestAt?_eq (hc : c.PartsBelow) {i : Nat} {f : Forest K}
    (h : c.UnfoldsTo i f) : c.graph.forestAt? i = some f := by
  induction h with
  | leaf item_eq joints_eq => exact hc.forestAt?_graph_of_terminal item_eq joints_eq
  | node item_eq joints_ne _ _ ihl ihr =>
    rw [hc.forestAt?_graph_of_joints item_eq joints_ne]
    congr 2
    refine List.map_congr_left fun j hj => ?_
    simp [alternativeOf, ihl j hj, ihr j hj]

/-- Every item has a forest. -/
theorem PartsBelow.exists_unfoldsTo (hc : c.PartsBelow) {i : Nat} (hi : i < c.items.size) :
    ∃ f, c.UnfoldsTo i f := by
  induction i using Nat.strongRecOn with
  | ind i ih =>
    have hitem : c.item? i = some c.items[i] := Array.getElem?_eq_getElem hi
    by_cases hjoints : c.items[i].joints = []
    · exact ⟨_, .leaf hitem hjoints⟩
    have hpart : ∀ j ∈ c.items[i].node.children, ∃ f, c.UnfoldsTo j f := fun j hj => by
      have hlt := hc i j (parts_eq_children hitem ▸ hj)
      exact ih j hlt (Nat.lt_trans hlt hi)
    have : Nonempty (Forest K) := ⟨.node c.items[i].key []⟩
    choose! left hleft using fun (joint : Joint) (hjoint : joint ∈ c.items[i].joints) =>
      hpart joint.left (Item.left_mem_children hjoint)
    choose! right hright using fun (joint : Joint) (hjoint : joint ∈ c.items[i].joints) =>
      hpart joint.right (Item.right_mem_children hjoint)
    exact ⟨_, .node hitem hjoints hleft hright⟩

/-- The forest of an item is the one that its node stands for. -/
theorem PartsBelow.unfoldsTo_iff (hc : c.PartsBelow) {i : Nat} {f : Forest K} :
    c.UnfoldsTo i f ↔ c.graph.forestAt? i = some f := by
  refine ⟨UnfoldsTo.forestAt?_eq hc, fun hf => ?_⟩
  obtain ⟨f', hf'⟩ := hc.exists_unfoldsTo (hc.lt_size_of_forestAt? hf)
  cases hf.symm.trans (hf'.forestAt?_eq hc)
  exact hf'

theorem PartsBelow.exists_forestAt?_of_node? (hc : c.PartsBelow) {b : BuiltForests K}
    (h : BuiltForests.CopyOf c b) {i m : Nat} (hm : b.node? i = some m) :
    ∃ f, b.graph.forestAt? m = some f ∧ c.UnfoldsTo i f := by
  obtain ⟨f, hf⟩ := Option.isSome_iff_exists.1 (ForestGraph.isSome_forestAt?_iff.2 (h.lt_size hm))
  exact ⟨f, hf, hc.unfoldsTo_iff.2 ((h.forestAt?_eq hc hm).symm.trans hf)⟩

/-- The relation `c.Gives i f`: after any demands for items of `c`, a demand for the item `i`
succeeds with the forest `f`. -/
def Gives (c : Chart K) (i : Nat) (f : Forest K) : Prop :=
  ∀ numbers, (∀ j ∈ numbers, j < c.items.size) →
    ∀ b roots, c.Demands (.empty c.items.size) numbers b roots →
      ∃ b' m, c.demand? b i = some (b', m) ∧ b'.graph.forestAt? m = some f

/-- A demand gives the forest of the item, whatever has been demanded before. -/
theorem PartsBelow.gives (hc : c.PartsBelow) {i : Nat} {f : Forest K}
    (hf : c.graph.forestAt? i = some f) : c.Gives i f := by
  intro numbers hnumbers b roots hdemands
  obtain ⟨_, _, hrun, -, hadds⟩ := exists_demands hc (BuiltForests.CopyOf.empty c) hnumbers
  cases hdemands.demandEach_eq.symm.trans hrun.demandEach_eq
  obtain ⟨b', m, hdemand, hm, hadds'⟩ :=
    exists_demand?_eq_some hc hadds.valid (hc.lt_size_of_forestAt? hf)
  exact ⟨b', m, hdemand, (hadds'.valid.forestAt?_eq hc hm).trans hf⟩

end Chart

namespace Parser

variable [DecidableEq K] [DecidableEq V]

/-- **Forests are built on demand.** In the chart of an input any demands succeed one after another,
in any order and with repeats. Each gives the node that belongs to the demanded item, which stands
for the item's forest; the items with forests are then those that can be reached from the demanded
ones; and whatever is demanded later, the forests that have been built stay as they are. -/
theorem demands_build_forests (g : Grammar K V) {input : List V} (hinput : input ≠ []) :
    ∃ c, (ofGrammar g).chart input = .ok c ∧
      ∀ numbers, (∀ i ∈ numbers, i < c.items.size) →
        ∃ b roots, c.Demands (.empty c.items.size) numbers b roots ∧
          List.Forall₂ (fun i m => b.node? i = some m ∧
            ∃ f, b.graph.forestAt? m = some f ∧ c.UnfoldsTo i f) numbers roots ∧
          (∀ i, (b.node? i).isSome ↔ ∃ r ∈ numbers, Reaches c.parts r i) ∧
          ∀ later, (∀ i ∈ later, i < c.items.size) →
            ∃ b' roots', c.Demands b later b' roots' ∧ b.Extends b' := by
  refine ⟨.ofInput (.ofGrammar g) input, chart_of_ne_nil _ hinput, fun numbers hnumbers => ?_⟩
  have hc := Chart.partsBelow_ofInput g input
  obtain ⟨b, roots, hdemands, hroots, hadds⟩ :=
    Chart.exists_demands hc (BuiltForests.CopyOf.empty _) hnumbers
  refine ⟨b, roots, hdemands, ?_, fun i => ?_, fun later hlater => ?_⟩
  · have hnodes : List.Forall₂ (fun node m => node = some m) (numbers.map b.node?) roots := by
      rw [← hroots, List.forall₂_map_left_iff]
      exact List.forall₂_same.2 fun _ _ => rfl
    rw [List.forall₂_map_left_iff] at hnodes
    exact hnodes.imp fun i m hm => ⟨hm, hc.exists_forestAt?_of_node? hadds.valid hm⟩
  · refine (hadds.isDone_iff i).trans ?_
    simp [Chart.builder, BuiltForests.node?_empty]
  · obtain ⟨b', roots', hdemands', -, hadds'⟩ := Chart.exists_demands hc hadds.valid hlater
    exact ⟨b', roots', hdemands', hadds'.kept⟩

/-- In `abab` the item for the whole input is demanded after one of its parts and before another
item, and then again; the item for `ba` is built as well, below the one for `bab`. -/
theorem demands_build_forests_pairs :
    ['a', 'b', 'a', 'b'] ≠ [] ∧ ∃ c, (ofGrammar .pairs).chart ['a', 'b', 'a', 'b'] = .ok c ∧
      (∀ i ∈ [6, 8, 4, 8], i < c.items.size) ∧
      ∃ b roots, c.Demands (.empty c.items.size) [6, 8, 4, 8] b roots ∧
        List.Forall₂ (fun i m => b.node? i = some m ∧
          ∃ f, b.graph.forestAt? m = some f ∧ c.UnfoldsTo i f) [6, 8, 4, 8] roots ∧
        (b.node? 5).isSome ∧
        (∀ i ∈ [5], i < c.items.size) ∧
        ∃ b' roots', c.Demands b [5] b' roots' ∧ b.Extends b' := by
  have hinput : ['a', 'b', 'a', 'b'] ≠ [] := List.cons_ne_nil _ _
  obtain ⟨c, hc, hdemands⟩ := demands_build_forests Grammar.pairs hinput
  have hsize : c.items.size = 9 := by
    cases hc
    rfl
  have hparts : 7 ∈ c.parts 8 ∧ 5 ∈ c.parts 7 := by
    cases hc
    decide
  have hnumbers : ∀ i ∈ [6, 8, 4, 8], i < c.items.size := by
    rw [hsize]
    decide
  have hlater : ∀ i ∈ [5], i < c.items.size := by
    rw [hsize]
    decide
  obtain ⟨b, roots, hrun, hforests, hbuilt, hkept⟩ := hdemands _ hnumbers
  have hbelow : Reaches c.parts 8 5 := .step hparts.1 (.step hparts.2 (.refl 5))
  exact ⟨hinput, c, hc, hnumbers, b, roots, hrun, hforests,
    (hbuilt 5).2 ⟨8, by decide, hbelow⟩, hlater, hkept _ hlater⟩

end Parser

end ChartParsing
