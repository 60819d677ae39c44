import ChartParsing.Proofs.Chart.Derivations
import ChartParsing.Proofs.Splice.Trees
import ChartParsing.Proofs.Tree.Leaves

/-!
# Reading an input back from its spliced parse

A parse keeps the keys of terminal rules and not the values that they were used for. Splicing finds
the values again, since a key has one output in a grammar that can be spliced, and it keeps the
leaves of a derivation in their order.

## Main definitions

* `Tree.Branching`: every node of a tree has several children.
* `Tree.ReadAs`: trees that read as given values from left to right.

## Main results

* `Grammar.Yields.readAs`: what takes the place of a derivation reads as its values.
* `Parser.leaves_splice_parse`: the leaves of a spliced parse are the input.
-/

namespace ChartParsing

universe u v

variable {K : Type u} {V : Type v}

namespace Tree

/-- Every node of the tree, at any depth, has at least two children. -/
inductive Branching : Tree K → Prop where
  /-- A leaf has no nodes. -/
  | leaf (key : K) : Branching (.leaf key)
  /-- A node has several children, and so has every node below it. -/
  | node (key : K) {children : List (Tree K)} (two : 2 ≤ children.length)
      (each : ∀ child ∈ children, Branching child) : Branching (.node key children)

/-- Trees whose leaves are the given values from left to right, one tree at least. -/
structure ReadAs (values : List V) (ts : List (Tree (Symbol K V))) : Prop where
  /-- There is a tree. -/
  length_pos : 0 < ts.length
  /-- The leaves are the values. -/
  leavesOf_eq : leavesOf ts = values.map .value
  /-- The nodes have several children. -/
  branching : ∀ t ∈ ts, Branching t

private theorem readAs_leaf (value : V) :
    ReadAs [value] [(.leaf (.value value) : Tree (Symbol K V))] where
  length_pos := Nat.one_pos
  leavesOf_eq := leaves_eq_frontier _
  branching t ht := by
    obtain rfl := List.mem_singleton.1 ht
    exact .leaf _

namespace ReadAs

variable {front back : List V} {ts us : List (Tree (Symbol K V))}

theorem append (h : ReadAs front ts) (h' : ReadAs back us) : ReadAs (front ++ back) (ts ++ us) where
  length_pos := by
    rw [List.length_append]
    exact Nat.add_pos_left h.length_pos _
  leavesOf_eq := by rw [leavesOf_append, h.leavesOf_eq, h'.leavesOf_eq, List.map_append]
  branching t ht := (List.mem_append.1 ht).elim (h.branching t) (h'.branching t)

theorem node (h : ReadAs front ts) (key : Symbol K V) (two : 2 ≤ ts.length) :
    ReadAs front [.node key ts] where
  length_pos := Nat.one_pos
  leavesOf_eq := by rw [leavesOf_singleton_node, h.leavesOf_eq]
  branching t ht := by
    obtain rfl := List.mem_singleton.1 ht
    exact .node key two h.branching

private theorem two_le_length_append (h : ReadAs front ts) (h' : ReadAs back us) :
    2 ≤ (ts ++ us).length := by
  have hfront := h.length_pos
  have hback := h'.length_pos
  rw [List.length_append]
  omega

end ReadAs

variable [DecidableEq K]

private theorem spliceChildren?_pair {g : Grammar K V} {l r : Tree K}
    {spliced : List (Tree (Symbol K V))} (h : spliceChildren? g [l, r] = some spliced) :
    ∃ ts us, spliceChild? g l = some ts ∧ spliceChild? g r = some us ∧ ts ++ us = spliced := by
  simp only [spliceChildren?, Option.bind_eq_some_iff, Option.map_some, Option.some.injEq,
    Option.map_eq_some_iff] at h
  obtain ⟨ts, hts, _, ⟨us, hus, rfl⟩, rfl⟩ := h
  exact ⟨ts, us, hts, hus, by rw [List.append_nil]⟩

end Tree

namespace Grammar

variable [DecidableEq K] [DecidableEq V] {g : Grammar K V} {t : SpliceTable K V}

theorem output?_eq_of_mem (ht : SpliceTable.ofGrammar g = .ok t) {rule : TerminalRule K V}
    (hrule : rule ∈ g.terminals) : g.output? rule.key = some rule.output :=
  (SpliceTable.output?_eq ht rule.key).symm.trans (SpliceTable.output?_eq_of_mem ht hrule)

/-- What takes the place of a derivation reads as the values that are derived. -/
theorem Yields.readAs (ht : SpliceTable.ofGrammar g = .ok t) {tree : Tree K} {values : List V}
    (h : g.Yields tree values) {spliced : List (Tree (Symbol K V))}
    (hspliced : tree.spliceChild? g = some spliced) : Tree.ReadAs values spliced := by
  induction h generalizing spliced with
  | leaf mem =>
    rw [Tree.spliceChild?, output?_eq_of_mem ht mem] at hspliced
    cases hspliced
    exact Tree.readAs_leaf _
  | @node rule l r front back mem left right left_key right_key ihl ihr =>
    rw [Tree.spliceChild?, Option.map_eq_some_iff] at hspliced
    obtain ⟨children, hchildren, rfl⟩ := hspliced
    obtain ⟨ts, us, hts, hus, rfl⟩ := Tree.spliceChildren?_pair hchildren
    have hl := ihl hts
    have hr := ihr hus
    split
    · exact hl.append hr
    · exact (hl.append hr).node _ (hl.two_le_length_append hr)

/-- A spliced derivation reads as the values that are derived; only a single value is read off a
leaf. -/
theorem Yields.readAs_splice? (ht : SpliceTable.ofGrammar g = .ok t) {tree : Tree K}
    {values : List V} (h : g.Yields tree values) {spliced : Tree (Symbol K V)}
    (hspliced : tree.splice? g = some spliced) :
    Tree.ReadAs values [spliced] ∧ ((∃ key, spliced = .leaf key) → values.length = 1) := by
  cases h with
  | leaf mem =>
    rw [Tree.splice?, output?_eq_of_mem ht mem] at hspliced
    cases hspliced
    exact ⟨Tree.readAs_leaf _, fun _ => rfl⟩
  | node mem left right left_key right_key =>
    rw [Tree.splice?, Option.map_eq_some_iff] at hspliced
    obtain ⟨children, hchildren, rfl⟩ := hspliced
    obtain ⟨ts, us, hts, hus, rfl⟩ := Tree.spliceChildren?_pair hchildren
    have hl := left.readAs ht hts
    have hr := right.readAs ht hus
    refine ⟨(hl.append hr).node _ (hl.two_le_length_append hr), ?_⟩
    rintro ⟨key, heq⟩
    cases heq

end Grammar

namespace Parser

variable [DecidableEq K] [DecidableEq V]

/-- Each tree of a spliced parse is a derivation of the input, spliced. -/
theorem exists_yields_of_mem_splice {g : Grammar K V} {input : List V}
    {flat : SharedForests (Symbol K V)}
    (h : ((ofGrammar g).forests (.ofInput (.ofGrammar g) input)).splice g = .ok flat)
    {f : Forest (Symbol K V)} (hf : f ∈ flat.toForests) {spliced : Tree (Symbol K V)}
    (hspliced : spliced ∈ f.trees) :
    ∃ tree, g.Yields tree input ∧ tree.splice? g = some spliced := by
  obtain ⟨f', hf', hperm⟩ :=
    exists_of_forall₂_of_mem (SharedForests.forall₂_perm_trees_splice h) hf
  obtain ⟨tree, htree, hsplice⟩ :=
    List.mem_map.1 (hperm.mem_iff.1 (List.mem_map_of_mem hspliced))
  obtain ⟨key, -, henum⟩ := exists_enumerates_of_mem_forests hf'
  exact ⟨tree, ((henum.mem_trees tree).1 htree).2, hsplice⟩

/-- **The leaves of a spliced parse are the input.** If the forests of an input are spliced, the
leaves of every tree that they stand for are the values of the input, in order. Such a tree is a
leaf only for a single value, and its nodes have at least two children each. -/
theorem leaves_splice_parse (g : Grammar K V) {input : List V} (hinput : input ≠ []) :
    ∃ fs, (ofGrammar g).parse input = .ok fs ∧ ∀ flat, fs.splice g = .ok flat →
      ∀ f ∈ flat.toForests, ∀ t ∈ f.trees,
        t.leaves = input.map .value ∧ ((∃ key, t = .leaf key) → input.length = 1) ∧
          t.Branching := by
  refine ⟨_, parse_of_ne_nil g hinput, fun flat hflat f hf spliced hspliced => ?_⟩
  obtain ⟨t, ht, -⟩ := SharedForests.splice_eq_ok_iff.1 hflat
  obtain ⟨tree, hyields, hsplice⟩ := exists_yields_of_mem_splice hflat hf hspliced
  obtain ⟨hread, hleaf⟩ := hyields.readAs_splice? ht hsplice
  exact ⟨hread.leavesOf_eq, hleaf, hread.branching spliced List.mem_cons_self⟩

/-- The one tree of `aabb`, spliced: the temporary `T` gives way to its two children. -/
theorem leaves_splice_parse_pairs :
    ['a', 'a', 'b', 'b'] ≠ [] ∧ ∃ fs flat, (ofGrammar .pairs).parse ['a', 'a', 'b', 'b'] = .ok fs ∧
      fs.splice .pairs = .ok flat ∧
      flat.trees = [[.node (.rule 'S') [.leaf (.value 'a'),
        .node (.rule 'S') [.leaf (.value 'a'), .leaf (.value 'b')], .leaf (.value 'b')]]] ∧
      ∀ f ∈ flat.toForests, ∀ t ∈ f.trees,
        t.leaves = ['a', 'a', 'b', 'b'].map .value ∧ t.Branching := by
  have hinput : ['a', 'a', 'b', 'b'] ≠ [] := List.cons_ne_nil _ _
  obtain ⟨fs, hfs, hread⟩ := leaves_splice_parse Grammar.pairs hinput
  have hspliced : (fs.splice .pairs).toOption.map SharedForests.trees =
      some [[.node (.rule 'S') [.leaf (.value 'a'),
        .node (.rule 'S') [.leaf (.value 'a'), .leaf (.value 'b')], .leaf (.value 'b')]]] := by
    cases hfs
    decide +kernel
  obtain ⟨flat, hflat⟩ : ∃ flat, fs.splice .pairs = .ok flat := by
    cases hfs
    exact ⟨_, rfl⟩
  have htrees := Option.some.inj (hflat ▸ hspliced)
  refine ⟨hinput, fs, flat, hfs, hflat, htrees, fun f hf t ht => ?_⟩
  obtain ⟨hleaves, -, hbranching⟩ := hread flat hflat f hf t ht
  exact ⟨hleaves, hbranching⟩

end Parser

end ChartParsing
