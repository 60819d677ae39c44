import ChartParsing.Proofs.Grammar.Splitting
import ChartParsing.Proofs.Splice.Forests

/-!
# Splicing plain forests

Without sharing, forests are spliced by plain recursion: what takes the place of the alternatives of
a forest is found alternative by alternative and child by child, and the first error ends it. The
flag and the output of a key are those that the grammar has for it; no table of them is made.
Splicing shared forests, where what has been found is remembered, gives the same forests or the same
error; so it does not matter how forests are shared.

## Main definitions

* `Forest.spliceChild`, `Forest.spliceChildren`, `Forest.spliceEach`: what takes the place of a
  child, of the children of an alternative, and of alternatives.
* `Forest.spliceRoot`, `Forest.spliceAll`: spliced forests.

## Main results

* `Forest.spliceChild_eq`: the recursion ends with the first fault, or with the replacements.
* `SharedForests.splice_eq_spliceAll`: splicing shared forests is splicing plain ones.
-/

namespace ChartParsing

universe u v w

/-! ### Outcomes -/

section Outcomes

variable {ε : Type u} {α : Type v} {β : Type v}

/-- The first fault if there is one, and else a value. -/
def faultOr (fault? : Option ε) (a : α) : Except ε α :=
  match fault? with
  | some e => .error e
  | none => .ok a

private theorem map_faultOr (fault? : Option ε) (a : α) (f : α → β) :
    (faultOr fault? a).map f = faultOr fault? (f a) := by
  cases fault? <;> rfl

private theorem bind_faultOr (fault? fault?' : Option ε) (a : α) (f : α → β) :
    ((faultOr fault? a).bind fun a => faultOr fault?' (f a)) =
      faultOr (fault?.or fault?') (f a) := by
  cases fault? <;> rfl

private theorem mapM_eq_ok_of_forall₂ {γ : Type w} {f : γ → Except ε α} {l : List γ} {l' : List α}
    (h : List.Forall₂ (fun a b => f a = .ok b) l l') : l.mapM f = .ok l' := by
  induction h with
  | nil => rfl
  | cons hab _ ih =>
    rw [List.mapM_cons, hab, ih]
    rfl

private theorem mapM_eq_error_of_findSome? {γ : Type w} {f : γ → Except ε α} {fault? : γ → Option ε}
    {l : List γ} {e : ε} (hok : ∀ a ∈ l, fault? a = none → ∃ b, f a = .ok b)
    (herror : ∀ a ∈ l, ∀ e, fault? a = some e → f a = .error e)
    (h : l.findSome? fault? = some e) : l.mapM f = .error e := by
  induction l with
  | nil => cases h
  | cons a l ih =>
    rw [List.forall_mem_cons] at hok herror
    rw [List.findSome?_cons] at h
    rw [List.mapM_cons]
    cases hfault : fault? a with
    | some e' =>
      rw [hfault] at h
      rw [herror.1 e' hfault]
      cases h
      rfl
    | none =>
      rw [hfault] at h
      obtain ⟨b, hb⟩ := hok.1 hfault
      rw [hb, ih hok.2 herror.2 h]
      rfl

end Outcomes

variable {K : Type u} {V : Type v} [DecidableEq K]

/-- The forest of the leaf that a leaf becomes. -/
def Grammar.leafForest (g : Grammar K V) (label : K) :
    Except (SpliceError K) (Forest (Symbol K V)) :=
  match g.output? label with
  | some value => .ok (.node (.value value) [[]])
  | none => .error (.valuelessLeaf label)

namespace Forest

/-! ### The recursion -/

mutual

/-- The lists of forests, one of which takes the place of a child. A leaf is looked up among the
outputs before the flag of its key is. -/
def spliceChild (g : Grammar K V) :
    Forest K → Except (SpliceError K) (List (List (Forest (Symbol K V))))
  | .node label alternatives =>
    if (node label alternatives).isLeaf then (g.leafForest label).map fun f => [[f]]
    else
      match g.isTemporary? label with
      | none => .error (.undefinedKey label)
      | some true => spliceEach g alternatives
      | some false => (spliceEach g alternatives).map fun spliced => [[.node (.rule label) spliced]]

/-- The lists that take the place of alternatives, one alternative after another. -/
def spliceEach (g : Grammar K V) :
    List (List (Forest K)) → Except (SpliceError K) (List (List (Forest (Symbol K V))))
  | [] => .ok []
  | children :: rest =>
    (spliceChildren g children).bind fun fronts => (spliceEach g rest).map (fronts ++ ·)

/-- The lists that take the place of the children of an alternative: those for the first child, each
in front of all lists for the others. -/
def spliceChildren (g : Grammar K V) :
    List (Forest K) → Except (SpliceError K) (List (List (Forest (Symbol K V))))
  | [] => .ok [[]]
  | child :: rest =>
    (spliceChild g child).bind fun fronts => (spliceChildren g rest).map (appendEach fronts)

end

/-- The forest that a root becomes. The flag of its key is looked up first. -/
def spliceRoot (g : Grammar K V) : Forest K → Except (SpliceError K) (Forest (Symbol K V))
  | .node label alternatives =>
    match g.isTemporary? label with
    | none => .error (.undefinedKey label)
    | some true => .error (.temporaryRoot label)
    | some false =>
      if (node label alternatives).isLeaf then g.leafForest label
      else (spliceEach g alternatives).map (.node (.rule label))

/-- The spliced forests. What is wrong with the grammar is reported first. -/
def spliceAll [DecidableEq V] (g : Grammar K V) (forests : List (Forest K)) :
    Except (SpliceError K) (List (Forest (Symbol K V))) :=
  (SpliceTable.ofGrammar g).bind fun _ => forests.mapM (spliceRoot g)

/-! ### Faults and replacements -/

variable {g : Grammar K V} {t : SpliceTable K V}

private theorem spliceChildren_eq {children : List (Forest K)} (h : ∀ child ∈ children,
      spliceChild g child = faultOr (child.fault? t) (child.replacements t)) :
    spliceChildren g children = faultOr (children.findSome? (fault? t))
      ((choices (children.map (replacements t))).map List.flatten) := by
  induction children with
  | nil => rfl
  | cons child rest ih =>
    rw [List.forall_mem_cons] at h
    rw [spliceChildren, h.1, ih h.2]
    simp only [map_faultOr, bind_faultOr, findSome?_cons_eq_or, appendEach, List.map_cons,
      choices_cons, List.map_flatMap, List.map_map, Function.comp_def, List.flatten_cons]

private theorem spliceEach_eq {alternatives : List (List (Forest K))}
    (h : ∀ children ∈ alternatives, ∀ child ∈ children,
      spliceChild g child = faultOr (child.fault? t) (child.replacements t)) :
    spliceEach g alternatives = faultOr (alternatives.findSome? (List.findSome? (fault? t)))
      (splicedAlternatives t alternatives) := by
  induction alternatives with
  | nil => rfl
  | cons children rest ih =>
    rw [List.forall_mem_cons] at h
    rw [spliceEach, spliceChildren_eq h.1, ih h.2]
    simp only [map_faultOr, bind_faultOr, findSome?_cons_eq_or, splicedAlternatives,
      spliceAlternatives, List.map_cons, List.flatMap_cons]

variable [DecidableEq V]

/-- The recursion ends with the first fault in the forest, or else with what takes its place. -/
theorem spliceChild_eq (ht : SpliceTable.ofGrammar g = .ok t) (f : Forest K) :
    spliceChild g f = faultOr (f.fault? t) (f.replacements t) := by
  induction f using forall_of_children with
  | step label alternatives ih =>
    rw [spliceChild, fault?_node]
    by_cases hleaf : (node label alternatives).isLeaf
    · rw [if_pos hleaf, if_pos hleaf, Grammar.leafForest, ← SpliceTable.output?_eq ht]
      cases houtput : t.output? label with
      | none => rfl
      | some value =>
        rw [replacements_of_isLeaf hleaf houtput]
        rfl
    · rw [if_neg hleaf, if_neg hleaf, spliceEach_eq ih, ← SpliceTable.flag?_eq ht]
      cases hflag : t.flag? label with
      | none => rfl
      | some flag =>
        cases flag with
        | true => rw [replacements_of_temporary hleaf hflag]
        | false => rw [map_faultOr, replacements_of_kept hleaf hflag]

/-- A root becomes what takes its place, unless there is a fault. -/
theorem map_spliceRoot (ht : SpliceTable.ofGrammar g = .ok t) (f : Forest K) :
    (spliceRoot g f).map (fun f' => [[f']]) =
      faultOr ((t.rootFault? f.label).or (f.fault? t)) (f.replacements t) := by
  cases f with
  | node label alternatives =>
    rw [spliceRoot, Forest.label, SpliceTable.rootFault?, ← SpliceTable.flag?_eq ht]
    cases hflag : t.flag? label with
    | none => rfl
    | some flag =>
      cases flag with
      | true => rfl
      | false =>
        dsimp only
        rw [Option.none_or, ← spliceChild_eq ht, spliceChild, ← SpliceTable.flag?_eq ht, hflag]
        by_cases hleaf : (node label alternatives).isLeaf
        · rw [if_pos hleaf, if_pos hleaf]
        · rw [if_neg hleaf, if_neg hleaf]
          cases spliceEach g alternatives <;> rfl

private theorem spliceRoot_eq_error (ht : SpliceTable.ofGrammar g = .ok t) {f : Forest K}
    {e : SpliceError K} (h : (t.rootFault? f.label).or (f.fault? t) = some e) :
    spliceRoot g f = .error e := by
  have hmap := map_spliceRoot ht f
  rw [h] at hmap
  cases hroot : spliceRoot g f <;> rw [hroot] at hmap <;> cases hmap
  rfl

private theorem spliceRoot_eq_ok (ht : SpliceTable.ofGrammar g = .ok t) {f : Forest K}
    {f' : Forest (Symbol K V)} (h : (t.rootFault? f.label).or (f.fault? t) = none)
    (hreplace : f.replacements t = [[f']]) : spliceRoot g f = .ok f' := by
  have hmap := map_spliceRoot ht f
  rw [h, hreplace] at hmap
  cases hroot : spliceRoot g f <;> rw [hroot] at hmap <;> cases hmap
  rfl

end Forest

/-! ### Shared forests and plain ones -/

namespace SharedForests

variable [DecidableEq V] {g : Grammar K V} {t : SpliceTable K V} {fs : SharedForests K}
  {flat : SharedForests (Symbol K V)}

theorem forall₂_spliceRoot (ht : SpliceTable.ofGrammar g = .ok t)
    {flats : List (Forest (Symbol K V))} (hfault : t.firstFault? fs = none)
    (hforests : List.Forall₂ (fun f f' => f.replacements t = [[f']]) fs.toForests flats) :
    List.Forall₂ (fun f f' => Forest.spliceRoot g f = .ok f') fs.toForests flats := by
  rw [SpliceTable.firstFault?, List.findSome?_eq_none_iff] at hfault
  refine ((List.forall₂_and_left _ _).2 ⟨hfault, hforests⟩).imp ?_
  rintro f f' ⟨hnone, hreplace⟩
  exact Forest.spliceRoot_eq_ok ht hnone hreplace

theorem mapM_spliceRoot_eq_error (ht : SpliceTable.ofGrammar g = .ok t) {e : SpliceError K}
    (hfault : t.firstFault? fs = some e) :
    fs.toForests.mapM (Forest.spliceRoot g) = .error e := by
  refine mapM_eq_error_of_findSome? (fun f _ hnone => ?_)
    (fun f _ e he => Forest.spliceRoot_eq_error ht he) hfault
  have hboth := Option.or_eq_none_iff.1 hnone
  obtain ⟨f', hf'⟩ := Forest.exists_replacements_eq_singleton
    (SpliceTable.rootFault?_eq_none_iff.1 hboth.1) hboth.2
  exact ⟨f', Forest.spliceRoot_eq_ok ht hnone hf'⟩

/-- Splicing shared forests gives what splicing the plain ones gives. -/
theorem map_toForests_splice (fs : SharedForests K) (g : Grammar K V) :
    (fs.splice g).map toForests = Forest.spliceAll g fs.toForests := by
  rw [Forest.spliceAll]
  cases hsplice : fs.splice g with
  | error e =>
    rcases splice_eq_error_iff.1 hsplice with hgrammar | ⟨t, ht, hfault⟩
    · rw [hgrammar]
      rfl
    · rw [ht]
      exact (mapM_spliceRoot_eq_error ht hfault).symm
  | ok flat =>
    obtain ⟨t, ht, hfault, hforests⟩ := exists_table_of_splice hsplice
    rw [ht]
    exact (mapM_eq_ok_of_forall₂ (forall₂_spliceRoot ht hfault hforests)).symm

/-- Each of the spliced forests is what splicing gives for its root alone. -/
theorem forall₂_splice_alone (h : fs.splice g = .ok flat) :
    List.Forall₂ (fun r r' => ∃ f' alone, flat.graph.forestAt? r' = some f' ∧
      (ofRoots fs.graph [r]).splice g = .ok alone ∧ alone.toForests = [f'])
      fs.roots flat.roots := by
  obtain ⟨t, ht, hfault, hforests⟩ := exists_table_of_splice h
  refine (forall₂_roots (forall₂_spliceRoot ht hfault hforests)).imp ?_
  rintro r r' ⟨f, f', hf, hf', hroot⟩
  have hsplice := map_toForests_splice (ofRoots fs.graph [r]) g
  rw [toForests_ofRoots, List.filterMap_cons_some hf, List.filterMap_nil, Forest.spliceAll, ht]
    at hsplice
  have hroots : [f].mapM (Forest.spliceRoot g) = .ok [f'] :=
    mapM_eq_ok_of_forall₂ (.cons hroot .nil)
  rw [Except.bind, hroots] at hsplice
  cases halone : (ofRoots fs.graph [r]).splice g with
  | error e =>
    rw [halone] at hsplice
    cases hsplice
  | ok alone =>
    rw [halone] at hsplice
    exact ⟨f', alone, hf', rfl, Except.ok.inj hsplice⟩

/-- **Remembering does not change what splicing gives.** For every grammar and all shared forests,
splicing gives forests equal to those that plain recursion on the unshared forests gives, or the
same error. So it gives the same for other shared forests that stand for the same forests, and each
of the spliced forests is what splicing gives for its root alone. -/
theorem splice_eq_spliceAll (fs : SharedForests K) (g : Grammar K V) :
    (fs.splice g).map toForests = Forest.spliceAll g fs.toForests ∧
    (∀ fs' : SharedForests K, fs'.toForests = fs.toForests →
      (fs'.splice g).map toForests = (fs.splice g).map toForests) ∧
    ∀ flat, fs.splice g = .ok flat →
      List.Forall₂ (fun r r' => ∃ f' alone, flat.graph.forestAt? r' = some f' ∧
        (ofRoots fs.graph [r]).splice g = .ok alone ∧ alone.toForests = [f'])
        fs.roots flat.roots := by
  refine ⟨map_toForests_splice fs g, fun fs' hfs' => ?_, fun flat => forall₂_splice_alone⟩
  rw [map_toForests_splice, map_toForests_splice, hfs']

/-- Shared forests with the keys of `Grammar.pairs`: the temporary forest stands in both
alternatives of the root, which is a root twice. -/
def sharedHalves : SharedForests Char :=
  .ofRoots (.ofNodes [⟨'a', [[]]⟩, ⟨'b', [[]]⟩, ⟨'S', [[0, 1]]⟩, ⟨'T', [[2, 1]]⟩,
    ⟨'S', [[0, 3], [0, 3]]⟩]) [4, 4]

/-- The same forests, with more nodes. -/
def splitHalves : SharedForests Char :=
  .ofRoots (.ofNodes [⟨'a', [[]]⟩, ⟨'b', [[]]⟩, ⟨'a', [[]]⟩, ⟨'S', [[0, 1]]⟩, ⟨'T', [[3, 1]]⟩,
    ⟨'S', [[2, 1]]⟩, ⟨'T', [[5, 1]]⟩, ⟨'S', [[0, 4], [2, 6]]⟩, ⟨'S', [[2, 6], [0, 6]]⟩]) [7, 8]

/-- Both are spliced to the same two forests. -/
theorem splice_eq_spliceAll_sharedHalves :
    ∃ flat, sharedHalves.splice .pairs = .ok flat ∧
      .ok flat.toForests = Forest.spliceAll .pairs sharedHalves.toForests ∧
      (splitHalves.splice .pairs).map toForests = .ok flat.toForests := by
  obtain ⟨flat, hflat⟩ : ∃ flat, sharedHalves.splice .pairs = .ok flat := ⟨_, rfl⟩
  obtain ⟨hplain, hshared, -⟩ := splice_eq_spliceAll sharedHalves Grammar.pairs
  have hsame : splitHalves.toForests = sharedHalves.toForests := rfl
  have hsplit := hshared splitHalves hsame
  rw [hflat] at hplain hsplit
  exact ⟨flat, hflat, hplain, hsplit⟩

end SharedForests

end ChartParsing
