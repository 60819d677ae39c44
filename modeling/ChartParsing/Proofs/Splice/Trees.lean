import ChartParsing.Proofs.Forest.Trees
import ChartParsing.Proofs.Grammar.Splitting
import ChartParsing.Proofs.Splice.Forests
import Mathlib.Data.List.Perm.Basic

/-!
# Splicing trees one by one

Splicing is a simple function on a single tree: a temporary subtree gives way to its own subtrees.
Splicing a forest gives, up to their order, the spliced trees of the forest, each as often. The
order differs where a child that is kept stands before a temporary one: the forest chooses the
alternatives of the temporary child first, the trees choose from left to right.

## Main definitions

* `Tree.splice?`: splice one tree.

## Main results

* `Forest.Faultless.perm_replacements`: what takes the place of a forest, against its trees.
* `SharedForests.perm_trees_splice`: splicing forests is splicing trees.
-/

namespace ChartParsing

universe u v w

open scoped List

/-! ### Choices of trees -/

private theorem perm_flatMap_flatMap {α : Type u} {β : Type v} {γ : Type w} (as : List α)
    (bs : List β) (f : α → β → List γ) :
    (as.flatMap fun a => bs.flatMap (f a)) ~ bs.flatMap fun b => as.flatMap fun a => f a b := by
  induction as with
  | nil => simp
  | cons a as ih =>
    simp only [List.flatMap_cons]
    exact (ih.append_left _).trans (List.flatMap_append_perm bs (f a) _)

variable {K : Type u} {V : Type v}

/-- The lists of trees that a list of forests stands for. -/
def Forest.treeLists (children : List (Forest K)) : List (List (Tree K)) :=
  choices (children.map trees)

namespace Forest

theorem treeLists_cons (child : Forest K) (rest : List (Forest K)) :
    treeLists (child :: rest) =
      child.trees.flatMap fun t => (treeLists rest).map (t :: ·) := rfl

theorem treeLists_append (fs fs' : List (Forest K)) :
    treeLists (fs ++ fs') = (treeLists fs).flatMap fun ts => (treeLists fs').map (ts ++ ·) := by
  rw [treeLists, List.map_append, choices_append]
  rfl

theorem treeLists_singleton (f : Forest K) : treeLists [f] = f.trees.map ([·]) := by
  simp [treeLists, List.map_eq_flatMap]

theorem trees_node_eq_map {label : K} {alternatives : List (List (Forest K))}
    (h : ¬(node label alternatives).isLeaf) :
    (node label alternatives).trees = (alternatives.flatMap treeLists).map (.node label) := by
  rw [trees_node_of_not_isLeaf h, List.map_flatMap]
  rfl

end Forest

/-! ### Splicing trees -/

namespace Tree

variable [DecidableEq K]

mutual

/-- What takes the place of a child: the value of a leaf, the spliced children of a node with a
temporary key, or the node with its children spliced. -/
def spliceChild? (g : Grammar K V) : Tree K → Option (List (Tree (Symbol K V)))
  | .leaf key => (g.output? key).map fun value => [.leaf (.value value)]
  | .node key children => (spliceChildren? g children).map fun spliced =>
      if g.isTemporary? key = some true then spliced else [.node (.rule key) spliced]

/-- What takes the place of a list of children. -/
def spliceChildren? (g : Grammar K V) : List (Tree K) → Option (List (Tree (Symbol K V)))
  | [] => some []
  | child :: rest => (spliceChild? g child).bind fun front =>
      (spliceChildren? g rest).map (front ++ ·)

end

/-- A tree with the nodes of temporary keys below the root spliced out and the leaves replaced by
their values. There is none if the key of a leaf has no output. -/
def splice? (g : Grammar K V) : Tree K → Option (Tree (Symbol K V))
  | .leaf key => (g.output? key).map fun value => .leaf (.value value)
  | .node key children => (spliceChildren? g children).map (.node (.rule key))

private theorem spliceChild?_node_of_temporary {g : Grammar K V} {key : K}
    (h : g.isTemporary? key = some true) (children : List (Tree K)) :
    spliceChild? g (.node key children) = spliceChildren? g children := by
  rw [spliceChild?]
  simp only [h, if_true, Option.map_id']

private theorem spliceChild?_node_of_kept {g : Grammar K V} {key : K}
    (h : g.isTemporary? key ≠ some true) (children : List (Tree K)) :
    spliceChild? g (.node key children) =
      (spliceChildren? g children).map fun spliced => [.node (.rule key) spliced] := by
  rw [spliceChild?]
  simp only [h, if_false]

/-- A tree whose key is not temporary is replaced by one tree. -/
theorem spliceChild?_eq {g : Grammar K V} {t : Tree K} (h : g.isTemporary? t.key ≠ some true) :
    spliceChild? g t = (t.splice? g).map ([·]) := by
  cases t with
  | leaf key => rw [spliceChild?, splice?, Option.map_map]; rfl
  | node key children =>
    have hkept : g.isTemporary? key ≠ some true := h
    rw [spliceChild?_node_of_kept hkept, splice?, Option.map_map]
    rfl

end Tree

/-! ### Splicing forests and splicing their trees -/

/-- If something can take the place of every child of an alternative, something can take the place
of the alternative. -/
theorem exists_mem_spliceAlternatives {α : Type u} {alternatives : List (List (List (List α)))}
    {children : List (List (List α))} (hmem : children ∈ alternatives) (hne : children ≠ [])
    (h : ∀ options ∈ children, ∃ l ∈ options, l ≠ []) :
    ∃ l ∈ spliceAlternatives alternatives, l ≠ [] := by
  obtain ⟨options, hoptions⟩ := List.exists_mem_of_ne_nil children hne
  obtain ⟨l, hl, hlne⟩ := h options hoptions
  have hempty : [] ∉ children := fun hempty => by
    obtain ⟨_, hnil, -⟩ := h [] hempty
    cases hnil
  obtain ⟨l', hl', hsubset⟩ := exists_subset_mem_spliceAlternatives hmem hempty hoptions hl
  exact ⟨l', hl', fun hnil => hlne (List.subset_nil.1 (hnil ▸ hsubset))⟩

namespace Forest

variable [DecidableEq K] {t : SpliceTable K V}

/-- If something can take the place of every child, something takes the place of one of the
alternatives. -/
theorem exists_mem_splicedAlternatives {label : K} {alternatives : List (List (Forest K))}
    (hleaf : ¬(node label alternatives).isLeaf)
    (h : ∀ children ∈ alternatives, ∀ child ∈ children, ∃ l ∈ child.replacements t, l ≠ []) :
    ∃ l ∈ splicedAlternatives t alternatives, l ≠ [] := by
  obtain ⟨children, hmem, hne⟩ : ∃ children ∈ alternatives, children ≠ [] := by
    simpa [isLeaf, Forest.alternatives] using hleaf
  refine exists_mem_spliceAlternatives (List.mem_map_of_mem hmem) (by simpa using hne) ?_
  rw [List.forall_mem_map]
  exact h children hmem

/-- Something can take the place of a forest without faults, even if nothing at all can do so as
well. -/
theorem Faultless.exists_mem_replacements {f : Forest K} (h : f.Faultless t) :
    ∃ l ∈ f.replacements t, l ≠ [] := by
  induction h with
  | leaf isLeaf output_eq =>
    rw [replacements_of_isLeaf isLeaf output_eq]
    exact ⟨_, List.mem_singleton_self _, List.cons_ne_nil _ _⟩
  | temporary not_isLeaf flag_eq _ ih =>
    rw [replacements_of_temporary not_isLeaf flag_eq]
    exact exists_mem_splicedAlternatives not_isLeaf ih
  | kept not_isLeaf flag_eq _ _ =>
    rw [replacements_of_kept not_isLeaf flag_eq]
    exact ⟨_, List.mem_singleton_self _, List.cons_ne_nil _ _⟩

/-- The trees that the replacements of a forest stand for, as lists. -/
def replacedTrees (t : SpliceTable K V) (f : Forest K) : List (List (Tree (Symbol K V))) :=
  (f.replacements t).flatMap treeLists

/-- The trees of one forest for each child, spliced one child after the other. -/
theorem perm_flatMap_treeLists {g : Grammar K V} (children : List (Forest K))
    (h : ∀ child ∈ children,
      (child.replacedTrees t).map some ~ child.trees.map (Tree.spliceChild? g)) :
    ((choices (children.map (replacements t))).flatMap fun lists =>
      treeLists lists.flatten).map some ~ (treeLists children).map (Tree.spliceChildren? g) := by
  induction children with
  | nil => exact .refl _
  | cons child rest ih =>
    rw [List.forall_mem_cons] at h
    have hrest := ih h.2
    generalize hlists : choices (rest.map (replacements t)) = lists at hrest ⊢
    calc _ = ((child.replacements t).flatMap fun l => lists.flatMap fun ls =>
            (treeLists l).flatMap fun front =>
              (treeLists ls.flatten).map fun back => some (front ++ back)) := by
          simp only [List.map_cons, choices_cons, hlists, List.flatMap_assoc, List.flatMap_map,
            List.flatten_cons, treeLists_append, List.map_flatMap, List.map_map, Function.comp_def]
      -- Trees for the first child are chosen before the replacements of the other children.
      _ ~ ((child.replacements t).flatMap fun l => (treeLists l).flatMap fun front =>
            lists.flatMap fun ls =>
              (treeLists ls.flatten).map fun back => some (front ++ back)) :=
          List.Perm.flatMap_left _ fun l _ => perm_flatMap_flatMap _ _ _
      _ = (((child.replacedTrees t).map some).flatMap fun front? =>
            ((lists.flatMap fun ls => treeLists ls.flatten).map some).map fun back? =>
              front?.bind fun front => back?.map (front ++ ·)) := by
          simp only [replacedTrees, List.flatMap_map, List.flatMap_assoc, List.map_flatMap,
            List.map_map, Function.comp_def, Option.bind_some, Option.map_some]
      _ ~ ((child.trees.map (Tree.spliceChild? g)).flatMap fun front? =>
            ((treeLists rest).map (Tree.spliceChildren? g)).map fun back? =>
              front?.bind fun front => back?.map (front ++ ·)) :=
          h.1.flatMap fun _ _ => hrest.map _
      _ = (treeLists (child :: rest)).map (Tree.spliceChildren? g) := by
          simp only [treeLists_cons, List.flatMap_map, List.map_flatMap, List.map_map,
            Function.comp_def, Tree.spliceChildren?]

theorem perm_splicedAlternatives {g : Grammar K V} (alternatives : List (List (Forest K)))
    (h : ∀ children ∈ alternatives, ∀ child ∈ children,
      (child.replacedTrees t).map some ~ child.trees.map (Tree.spliceChild? g)) :
    ((splicedAlternatives t alternatives).flatMap treeLists).map some ~
      (alternatives.flatMap treeLists).map (Tree.spliceChildren? g) := by
  simp only [splicedAlternatives, spliceAlternatives, List.flatMap_map, List.flatMap_assoc,
    List.map_flatMap]
  refine List.Perm.flatMap_left _ fun children hmem => ?_
  rw [← List.map_flatMap]
  exact perm_flatMap_treeLists children (h children hmem)

/-! ### Trees of the replacements -/

section Cases

variable {label : K} {alternatives : List (List (Forest K))}

private theorem replacedTrees_of_isLeaf (h : (node label alternatives).isLeaf) {value : V}
    (hvalue : t.output? label = some value) :
    (node label alternatives).replacedTrees t = [[.leaf (.value value)]] := by
  have hleaf : (node (.value value) [[]] : Forest (Symbol K V)).trees = [.leaf (.value value)] :=
    trees_of_isLeaf rfl
  rw [replacedTrees, replacements_of_isLeaf h hvalue, List.flatMap_singleton, treeLists_singleton,
    hleaf, List.map_singleton]

private theorem replacedTrees_of_temporary (h : ¬(node label alternatives).isLeaf)
    (hflag : t.flag? label = some true) :
    (node label alternatives).replacedTrees t =
      (splicedAlternatives t alternatives).flatMap treeLists := by
  rw [replacedTrees, replacements_of_temporary h hflag]

private theorem replacedTrees_of_kept (h : ¬(node label alternatives).isLeaf)
    (hflag : t.flag? label = some false)
    (hne : ∃ l ∈ splicedAlternatives t alternatives, l ≠ []) :
    (node label alternatives).replacedTrees t =
      ((splicedAlternatives t alternatives).flatMap treeLists).map
        fun spliced => [.node (.rule label) spliced] := by
  have hleaf : ¬(node (.rule label) (splicedAlternatives t alternatives)).isLeaf := by
    intro hempty
    obtain ⟨l, hl, hlne⟩ := hne
    exact hlne (List.isEmpty_iff.1 (List.all_eq_true.1 hempty l hl))
  rw [replacedTrees, replacements_of_kept h hflag, List.flatMap_singleton, treeLists_singleton,
    trees_node_eq_map hleaf, List.map_map]
  rfl

end Cases

/-- What takes the place of a forest stands for what takes the place of its trees, each as often. -/
theorem Faultless.perm_replacements [DecidableEq V] {g : Grammar K V}
    (ht : SpliceTable.ofGrammar g = .ok t) {f : Forest K} (h : f.Faultless t) :
    (f.replacedTrees t).map some ~ f.trees.map (Tree.spliceChild? g) := by
  induction h with
  | @leaf label _ value isLeaf output_eq =>
    have hchild : Tree.spliceChild? g (.leaf label) = some [.leaf (.value value)] := by
      rw [Tree.spliceChild?, ← SpliceTable.output?_eq ht, output_eq]
      rfl
    rw [replacedTrees_of_isLeaf isLeaf output_eq, trees_of_isLeaf isLeaf]
    exact .of_eq (congrArg ([·]) hchild.symm)
  | @temporary label alternatives not_isLeaf flag_eq _ ih =>
    have htemporary := (SpliceTable.flag?_eq ht label).symm.trans flag_eq
    rw [trees_node_eq_map not_isLeaf, List.map_map, replacedTrees_of_temporary not_isLeaf flag_eq]
    exact (perm_splicedAlternatives alternatives ih).trans (.of_eq (List.map_congr_left fun ts _ =>
      (Tree.spliceChild?_node_of_temporary htemporary ts).symm))
  | @kept label alternatives not_isLeaf flag_eq each ih =>
    have hkept : g.isTemporary? label ≠ some true := by
      rw [← SpliceTable.flag?_eq ht, flag_eq]
      simp
    have hne := exists_mem_splicedAlternatives not_isLeaf fun children hmem child hchild =>
      (each children hmem child hchild).exists_mem_replacements
    have hmap := (perm_splicedAlternatives alternatives ih).map
      (Option.map fun spliced => [Tree.node (Symbol.rule label) spliced])
    rw [List.map_map, List.map_map] at hmap
    rw [trees_node_eq_map not_isLeaf, List.map_map, replacedTrees_of_kept not_isLeaf flag_eq hne,
      List.map_map]
    exact hmap.trans (.of_eq (List.map_congr_left fun ts _ =>
      (Tree.spliceChild?_node_of_kept hkept ts).symm))

end Forest

namespace SharedForests

variable [DecidableEq K] [DecidableEq V] {g : Grammar K V} {fs : SharedForests K}
  {flat : SharedForests (Symbol K V)}

/-- A forest whose key is not temporary has its trees spliced, each as often. -/
theorem perm_trees_of_replacements {t : SpliceTable K V} (ht : SpliceTable.ofGrammar g = .ok t)
    {f : Forest K} {f' : Forest (Symbol K V)} (hflag : t.flag? f.label = some false)
    (hfault : f.fault? t = none) (hf' : f.replacements t = [[f']]) :
    (f'.trees.map some).Perm (f.trees.map (Tree.splice? g)) := by
  have hperm := (Forest.faultless_of_fault?_eq_none hfault).perm_replacements ht
  have hsingleton : f.trees.map (Tree.spliceChild? g) =
      (f.trees.map (Tree.splice? g)).map (Option.map ([·])) := by
    rw [List.map_map]
    refine List.map_congr_left fun tree htree => Tree.spliceChild?_eq ?_
    rw [Forest.key_of_mem_trees htree, ← SpliceTable.flag?_eq ht, hflag]
    simp
  have hinj : Function.Injective (Option.map fun tree : Tree (Symbol K V) => [tree]) :=
    Option.map_injective List.singleton_injective
  rw [Forest.replacedTrees, hf', List.flatMap_singleton, Forest.treeLists_singleton, List.map_map,
    hsingleton] at hperm
  rw [← List.map_perm_map_iff hinj, List.map_map]
  exact hperm

theorem forall₂_perm_trees_splice (h : fs.splice g = .ok flat) :
    List.Forall₂ (fun f f' => (f'.trees.map some).Perm (f.trees.map (Tree.splice? g)))
      fs.toForests flat.toForests := by
  obtain ⟨t, ht, hfault, hforests⟩ := exists_table_of_splice h
  have hroots := SpliceTable.firstFault?_eq_none_iff.1 hfault
  refine ((List.forall₂_and_left _ _).2 ⟨hroots, hforests⟩).imp ?_
  rintro f f' ⟨⟨hflag, hfault⟩, hf'⟩
  exact perm_trees_of_replacements ht hflag hfault hf'

/-- **Splicing forests is splicing trees.** If forests are spliced, there is one spliced forest for
each of them, and its trees are the trees of that forest spliced one by one, each as often, up to
their order. -/
theorem perm_trees_splice (h : fs.splice g = .ok flat) :
    List.Forall₂ (fun spliced trees => (spliced.map some).Perm (trees.map (Tree.splice? g)))
      flat.trees fs.trees := by
  rw [trees, trees, List.forall₂_map_left_iff, List.forall₂_map_right_iff]
  exact (forall₂_perm_trees_splice h).flip

/-- Shared forests with the keys of `Grammar.pairs`: a forest of two trees for `S` stands below the
root, both beside a temporary forest and inside its alternatives. -/
def sharedPairs : SharedForests Char :=
  .ofRoots (.ofNodes [⟨'a', [[]]⟩, ⟨'b', [[]]⟩, ⟨'S', [[0, 1], [1, 0]]⟩, ⟨'T', [[2, 1], [1, 2]]⟩,
    ⟨'S', [[2, 3]]⟩]) [4]

/-- The kept child of the root has two trees and the temporary one four, which the forest and the
trees choose in different orders. -/
theorem perm_trees_splice_sharedPairs :
    ∃ flat, sharedPairs.splice .pairs = .ok flat ∧
      List.Forall₂ (fun spliced trees => (spliced.map some).Perm
        (trees.map (Tree.splice? Grammar.pairs))) flat.trees sharedPairs.trees := by
  obtain ⟨flat, hflat⟩ : ∃ flat, sharedPairs.splice .pairs = .ok flat := ⟨_, rfl⟩
  exact ⟨flat, hflat, perm_trees_splice hflat⟩

end SharedForests

end ChartParsing
