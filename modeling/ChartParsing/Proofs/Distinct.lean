import ChartParsing.Distinct
import ChartParsing.Proofs.Related
import Mathlib.Data.List.Induction

/-!
# First occurrences and groups of other lists

The distinct items of a list are the only list that has each of its items once, in the order of
their first occurrences. First occurrences are kept by a filter, and dropping repeats before a map
makes no difference if repeats are dropped after it too. Pairs whose first components are equal
place by place have the same groups, as far as their second components are the same.

## Main definitions

* `FirstOccurrences`: one list has the first occurrences of another one.

## Main results

* `firstOccurrences_iff`: the first occurrences are the distinct items.
* `distinct_of_nodup`: a list without repeats is left as it is.
* `filter_distinct`: the first occurrences of the items with a property.
* `distinct_map_distinct`: the first occurrences of the images.
* `grouped_concat_of_notMem`, `grouped_concat_of_getElem?`: the groups with one more pair.
* `forall₂_grouped`: groups of related pairs are related.
-/

namespace ChartParsing

universe u v w

variable {α : Type u} {β : Type v} {γ : Type w}

/-! ### First occurrences -/

section Distinct

variable [DecidableEq α]

/-- The second list has the items of the first one, each once, in the order of their first
occurrences. -/
structure FirstOccurrences (l d : List α) : Prop where
  /-- No item is there twice. -/
  nodup : d.Nodup
  /-- The items are the same. -/
  mem_iff : ∀ a, a ∈ d ↔ a ∈ l
  /-- What occurs earlier comes earlier. -/
  ordered : d.Pairwise fun a b => l.idxOf a < l.idxOf b

theorem firstOccurrences_distinct (l : List α) : FirstOccurrences l (distinct l) := by
  refine ⟨nodup_distinct l, fun _ => mem_distinct, ?_⟩
  induction l using List.reverseRecOn with
  | nil => exact .nil
  | append_singleton l a ih =>
    have hold : (distinct l).Pairwise fun b c => (l ++ [a]).idxOf b < (l ++ [a]).idxOf c := by
      refine ih.imp_of_mem fun hb hc hlt => ?_
      rwa [List.idxOf_append_of_mem (mem_distinct.1 hb),
        List.idxOf_append_of_mem (mem_distinct.1 hc)]
    rw [distinct_concat]
    by_cases hmem : a ∈ distinct l
    · rwa [pushNew_of_mem hmem]
    · rw [pushNew, if_neg hmem]
      refine List.pairwise_append.2 ⟨hold, List.pairwise_singleton _ _, fun b hb c hc => ?_⟩
      have hb' : b ∈ l := mem_distinct.1 hb
      rw [List.mem_singleton.1 hc, List.idxOf_append_of_mem hb',
        List.idxOf_append_of_notMem (mt mem_distinct.2 hmem)]
      exact Nat.lt_add_right _ (List.idxOf_lt_length_of_mem hb')

/-- The first occurrences are the distinct items, and no other list. -/
theorem firstOccurrences_iff {l d : List α} : FirstOccurrences l d ↔ d = distinct l := by
  constructor
  · intro h
    have hdistinct := firstOccurrences_distinct l
    have hperm : d.Perm (distinct l) :=
      (List.perm_ext_iff_of_nodup h.nodup hdistinct.nodup).2 fun a =>
        (h.mem_iff a).trans (hdistinct.mem_iff a).symm
    refine hperm.eq_of_pairwise (fun a b _ _ hab hba => ?_) h.ordered hdistinct.ordered
    exact absurd hab (Nat.lt_asymm hba)
  · rintro rfl
    exact firstOccurrences_distinct l

/-- A list without repeats is left as it is. -/
theorem distinct_of_nodup {l : List α} (h : l.Nodup) : distinct l = l := by
  induction l using List.reverseRecOn with
  | nil => rfl
  | append_singleton l a ih =>
    obtain ⟨hl, -, hdisjoint⟩ := List.nodup_append.1 h
    have hmem : a ∉ l := fun ha => hdisjoint a ha a (List.mem_singleton_self a) rfl
    rw [distinct_concat, ih hl, pushNew, if_neg hmem]

private theorem filter_pushNew (p : α → Bool) (l : List α) (a : α) :
    (pushNew l a).filter p = if p a then pushNew (l.filter p) a else l.filter p := by
  by_cases hmem : a ∈ l
  · rw [pushNew_of_mem hmem]
    split
    · next hp => rw [pushNew_of_mem (List.mem_filter.2 ⟨hmem, hp⟩)]
    · rfl
  · have hmem' : a ∉ l.filter p := fun h => hmem (List.mem_filter.1 h).1
    rw [pushNew, if_neg hmem, pushNew, if_neg hmem', List.filter_append]
    cases hp : p a <;> simp [hp]

/-- The first occurrences that have a property are those of the items that have it. -/
theorem filter_distinct (p : α → Bool) (l : List α) :
    (distinct l).filter p = distinct (l.filter p) := by
  induction l using List.reverseRecOn with
  | nil => rfl
  | append_singleton l a ih =>
    rw [distinct_concat, filter_pushNew, ih, List.filter_append]
    cases hp : p a
    · simp [hp]
    · simp [hp, distinct_concat]

/-- Repeats that are dropped before a map would be dropped after it. -/
theorem distinct_map_distinct [DecidableEq β] (f : α → β) (l : List α) :
    distinct ((distinct l).map f) = distinct (l.map f) := by
  induction l using List.reverseRecOn with
  | nil => rfl
  | append_singleton l a ih =>
    rw [distinct_concat, List.map_append, List.map_singleton, distinct_concat, ← ih]
    by_cases hmem : a ∈ distinct l
    · have hmem' : f a ∈ distinct ((distinct l).map f) :=
        mem_distinct.2 (List.mem_map_of_mem hmem)
      rw [pushNew_of_mem hmem, pushNew_of_mem hmem']
    · rw [pushNew, if_neg hmem, List.map_append, List.map_singleton, distinct_concat]

end Distinct

/-! ### Groups with one more pair -/

section Concat

variable [DecidableEq α] {l : List (α × β)} {a : α} {b : β}

private theorem valuesAt_concat_self : valuesAt a (l ++ [(a, b)]) = valuesAt a l ++ [b] := by
  simp [valuesAt]

private theorem valuesAt_concat_of_ne {a' : α} (h : a ≠ a') :
    valuesAt a' (l ++ [(a, b)]) = valuesAt a' l := by
  simp [valuesAt, h]

private theorem valuesAt_eq_nil (h : a ∉ l.map Prod.fst) : valuesAt a l = [] := by
  refine List.eq_nil_iff_forall_not_mem.2 fun b hb => h ?_
  exact List.mem_map.2 ⟨(a, b), mem_valuesAt.1 hb, rfl⟩

/-- A pair with a new first component makes a group of its own. -/
theorem grouped_concat_of_notMem (h : a ∉ l.map Prod.fst) :
    grouped (l ++ [(a, b)]) = grouped l ++ [(a, [b])] := by
  have hother : ∀ a' ∈ distinct (l.map Prod.fst),
      (a', valuesAt a' (l ++ [(a, b)])) = (a', valuesAt a' l) := fun a' ha' => by
    rw [valuesAt_concat_of_ne (ne_of_mem_of_not_mem (mem_distinct.1 ha') h).symm]
  rw [grouped, List.map_append, List.map_singleton, distinct_concat, pushNew,
    if_neg (mt mem_distinct.1 h), List.map_append, List.map_congr_left hother, List.map_singleton,
    valuesAt_concat_self, valuesAt_eq_nil h]
  rfl

/-- Another pair joins the group of its first component. -/
theorem grouped_concat_of_getElem? {i : Nat} {bs : List β} (h : (grouped l)[i]? = some (a, bs)) :
    grouped (l ++ [(a, b)]) = (grouped l).set i (a, bs ++ [b]) := by
  rw [grouped, List.getElem?_map, Option.map_eq_some_iff] at h
  obtain ⟨_, hi, heq⟩ := h
  cases heq
  have hmem : a ∈ distinct (l.map Prod.fst) := List.mem_of_getElem? hi
  rw [grouped, List.map_append, List.map_singleton, distinct_concat, pushNew_of_mem hmem, grouped]
  have hlt : i < (distinct (l.map Prod.fst)).length := (List.getElem?_eq_some_iff.1 hi).1
  refine List.ext_getElem? fun j => ?_
  rw [List.getElem?_set, List.getElem?_map, List.getElem?_map, List.length_map]
  by_cases hij : i = j
  · rw [if_pos hij, if_pos (hij ▸ hlt), ← hij, hi, Option.map_some, valuesAt_concat_self]
  · rw [if_neg hij]
    refine Option.map_congr fun a' ha' => ?_
    have hne : a ≠ a' := by
      rintro rfl
      exact hij ((List.getElem?_inj hlt (nodup_distinct _)).1 (hi.trans ha'.symm))
    rw [valuesAt_concat_of_ne hne]

end Concat

/-! ### Groups of related pairs -/

variable {R : β → γ → Prop} {ps : List (α × β)} {qs : List (α × γ)}

private theorem forall₂_valuesAt [DecidableEq α] (a : α) (h : List.Forall₂ (SameKey R) ps qs) :
    List.Forall₂ R (valuesAt a ps) (valuesAt a qs) := by
  refine List.rel_filterMap (fun p q hpq => ?_) h
  rw [← hpq.1]
  split
  · exact .some hpq.2
  · exact .none

/-- The groups of related pairs have the same keys, and related values for each of them. -/
theorem forall₂_grouped [DecidableEq α] (h : List.Forall₂ (SameKey R) ps qs) :
    List.Forall₂ (SameKey (List.Forall₂ R)) (grouped ps) (grouped qs) := by
  rw [grouped, grouped, map_fst_eq_of_forall₂ h, List.forall₂_map_left_iff,
    List.forall₂_map_right_iff]
  exact List.forall₂_same.2 fun a _ => ⟨rfl, forall₂_valuesAt a h⟩

end ChartParsing
