import Mathlib.Data.List.Forall2

/-!
# Lists that are related place by place

What two lists have in common that are related place by place, and which lists made from them are
related again.

## Main definitions

* `SameKey`: pairs with equal first components and related second components.

## Main results

* `rel_of_getElem?`, `exists_of_forall₂_of_getElem?`, `exists_of_forall₂_of_mem`: what is found in
  related lists.
* `forall₂_filterMap`, `forall₂_of_filterMap`: selections from related lists.
* `forall₂_zipIdx`: a list, numbered in two ways.
-/

namespace ChartParsing

universe u v w x

variable {α : Type u} {β : Type v} {γ : Type w} {δ : Type x}

/-! ### Places of related lists -/

section Places

variable {R : α → β → Prop} {as : List α} {bs : List β}

/-- What is at the same place of related lists is related. -/
theorem rel_of_getElem? (h : List.Forall₂ R as bs) {k : Nat} {a : α} {b : β}
    (ha : as[k]? = some a) (hb : bs[k]? = some b) : R a b := by
  obtain ⟨hk, rfl⟩ := List.getElem?_eq_some_iff.1 ha
  obtain ⟨hk', rfl⟩ := List.getElem?_eq_some_iff.1 hb
  exact h.get hk hk'

/-- What is at a place of one of two related lists is related to what is there in the other one. -/
theorem exists_of_forall₂_of_getElem? (h : List.Forall₂ R as bs) {k : Nat} {a : α}
    (ha : as[k]? = some a) : ∃ b, bs[k]? = some b ∧ R a b := by
  have hk : k < bs.length := h.length_eq ▸ (List.getElem?_eq_some_iff.1 ha).1
  exact ⟨bs[k], List.getElem?_eq_getElem hk, rel_of_getElem? h ha (List.getElem?_eq_getElem hk)⟩

/-- What is on the right of related lists is related to something on the left. -/
theorem exists_of_forall₂_of_mem (h : List.Forall₂ R as bs) {b : β} (hb : b ∈ bs) :
    ∃ a ∈ as, R a b := by
  induction h with
  | nil => cases hb
  | cons hab _ ih =>
    rcases List.mem_cons.1 hb with rfl | hb
    · exact ⟨_, List.mem_cons_self, hab⟩
    · obtain ⟨a, ha, hr⟩ := ih hb
      exact ⟨a, List.mem_cons_of_mem _ ha, hr⟩

end Places

/-! ### Selections from related lists -/

section Selections

variable {R : γ → δ → Prop} {f : α → Option γ} {g : β → Option δ} {as : List α} {bs : List β}

/-- What is selected from two lists is related, if something is selected at every place. -/
theorem forall₂_filterMap
    (h : List.Forall₂ (fun a b => ∃ c d, f a = some c ∧ g b = some d ∧ R c d) as bs) :
    List.Forall₂ R (as.filterMap f) (bs.filterMap g) := by
  induction h with
  | nil => exact .nil
  | cons hab _ ih =>
    obtain ⟨c, d, hc, hd, hcd⟩ := hab
    rw [List.filterMap_cons_some hc, List.filterMap_cons_some hd]
    exact .cons hcd ih

/-- If something is selected at every place, the lists are related by what is selected. -/
theorem forall₂_of_filterMap (hf : ∀ a ∈ as, (f a).isSome) (hg : ∀ b ∈ bs, (g b).isSome)
    (h : List.Forall₂ R (as.filterMap f) (bs.filterMap g)) :
    List.Forall₂ (fun a b => ∃ c d, f a = some c ∧ g b = some d ∧ R c d) as bs := by
  induction as generalizing bs with
  | nil =>
    cases bs with
    | nil => exact .nil
    | cons b bs =>
      obtain ⟨d, hd⟩ := Option.isSome_iff_exists.1 (hg b List.mem_cons_self)
      rw [List.filterMap_cons_some hd] at h
      cases h
  | cons a as ih =>
    rw [List.forall_mem_cons] at hf
    obtain ⟨c, hc⟩ := Option.isSome_iff_exists.1 hf.1
    rw [List.filterMap_cons_some hc] at h
    cases bs with
    | nil => cases h
    | cons b bs =>
      rw [List.forall_mem_cons] at hg
      obtain ⟨d, hd⟩ := Option.isSome_iff_exists.1 hg.1
      rw [List.filterMap_cons_some hd] at h
      cases h with
      | cons hcd hrest => exact .cons ⟨c, d, hc, hd, hcd⟩ (ih hf.2 hg.2 hrest)

end Selections

theorem map_filter_congr_forall₂ {R : α → α → Prop} {p : α → Bool} {f : α → β}
    (hp : ∀ a b, R a b → p a = p b) (hf : ∀ a b, R a b → f a = f b) {l l' : List α}
    (h : List.Forall₂ R l l') : (l.filter p).map f = (l'.filter p).map f := by
  induction h with
  | nil => rfl
  | cons hab _ ih =>
    rw [List.filter_cons, List.filter_cons, hp _ _ hab]
    split
    · rw [List.map_cons, List.map_cons, hf _ _ hab, ih]
    · exact ih

/-! ### Pairs -/

/-- The pairs have equal first components and related second components. -/
def SameKey (R : β → γ → Prop) (p : α × β) (q : α × γ) : Prop :=
  p.1 = q.1 ∧ R p.2 q.2

theorem map_fst_eq_of_forall₂ {R : β → γ → Prop} {ps : List (α × β)} {qs : List (α × γ)}
    (h : List.Forall₂ (SameKey R) ps qs) : ps.map Prod.fst = qs.map Prod.fst := by
  induction h with
  | nil => rfl
  | cons hpq _ ih => rw [List.map_cons, List.map_cons, hpq.1, ih]

/-- A list that is numbered from `m` on is related to the same list numbered from `n` on, if the
numbers are. -/
theorem forall₂_zipIdx {R : Nat → Nat → Prop} (l : List α) (m n : Nat)
    (h : ∀ k < l.length, R (m + k) (n + k)) :
    List.Forall₂ (SameKey R) (l.zipIdx m) (l.zipIdx n) := by
  induction l generalizing m n with
  | nil => exact .nil
  | cons a l ih =>
    rw [List.zipIdx_cons, List.zipIdx_cons]
    refine .cons ⟨rfl, h 0 (Nat.succ_pos _)⟩ (ih (m + 1) (n + 1) fun k hk => ?_)
    rw [Nat.add_assoc, Nat.add_assoc, Nat.add_comm 1 k]
    exact h (k + 1) (Nat.succ_lt_succ hk)

end ChartParsing
