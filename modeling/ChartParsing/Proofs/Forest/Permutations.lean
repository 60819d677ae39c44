import ChartParsing.Proofs.Forest.Bounds
import ChartParsing.Proofs.Forest.Ways
import Mathlib.Data.List.Perm.Basic

/-!
# Censuses and orders

The census of a choice does not depend on the order of what can be chosen: minima, maxima and
checked sums do not. Nor does the census of a forest depend on how the forest is put together, as
long as it stands for the same trees.

## Main results

* `Census.choice?_eq_of_perm`: the census of a choice in another order.
* `Forest.census_eq_of_perm`: the census of a forest with the same trees.
* `perm_map_of_perm_map`: items with the same keys in another order have the same values.
-/

namespace ChartParsing

universe u v w

open scoped List

/-! ### Choices in another order -/

private theorem checkedAdd?_comm (a b : Option Nat) : checkedAdd? a b = checkedAdd? b a := by
  cases a <;> cases b <;> simp [checkedAdd?, Nat.add_comm]

private theorem bind_checked?_of_le {n : Nat} {f : Nat → Nat} (h : n ≤ f n) :
    ((checked? n).bind fun n => checked? (f n)) = checked? (f n) := by
  by_cases hn : n ≤ maxCount
  · simp [checked?, hn]
  · have hmore : ¬f n ≤ maxCount := by omega
    simp [checked?, hn, hmore]

private theorem checkedAdd?_assoc (a b c : Option Nat) :
    checkedAdd? (checkedAdd? a b) c = checkedAdd? a (checkedAdd? b c) := by
  have hnone : ∀ n, checkedAdd? n none = none := fun n => by cases n <;> rfl
  match a, b, c with
  | none, _, _ => rfl
  | some a, none, c =>
    rw [hnone]
    exact (hnone (some a)).symm
  | some a, some b, none => rw [hnone, hnone, hnone]
  | some a, some b, some c =>
    calc checkedAdd? (checkedAdd? (some a) (some b)) (some c) = checked? (a + b + c) :=
          bind_checked?_of_le (f := (· + c)) (Nat.le_add_right (a + b) c)
      _ = checked? (a + (b + c)) := by rw [Nat.add_assoc]
      _ = checkedAdd? (some a) (checkedAdd? (some b) (some c)) :=
          (bind_checked?_of_le (f := (a + ·)) (Nat.le_add_left (b + c) a)).symm

namespace Census

theorem or_comm (a b : Census) : a.or b = b.or a := by
  simp only [or, Nat.min_comm, Nat.max_comm, checkedAdd?_comm]

theorem or_assoc (a b c : Census) : (a.or b).or c = a.or (b.or c) := by
  simp only [or, Nat.min_assoc, Nat.max_assoc, checkedAdd?_assoc]

private theorem or_right_comm (a b c : Census) : (a.or b).or c = (a.or c).or b := by
  rw [or_assoc, or_comm b c, ← or_assoc]

/-- The census of a choice does not depend on the order of what can be chosen. -/
theorem choice?_eq_of_perm {censuses censuses' : List Census} (h : censuses ~ censuses') :
    choice? censuses = choice? censuses' := by
  induction h with
  | nil => rfl
  | @cons a rest rest' h _ =>
    exact congrArg some (h.foldl_eq' (fun b _ c _ a => or_right_comm a b c) a)
  | swap a b rest => rw [choice?, choice?, List.foldl_cons, List.foldl_cons, or_comm]
  | trans _ _ ih ih' => exact ih.trans ih'

/-! ### Censuses of the same trees -/

private theorem eq_of_value_eq {c c' : Census} (hvalue : ∀ b : Bound, b.value c = b.value c')
    (hways : c.ways = c'.ways) : c = c' := by
  cases c
  cases c'
  rw [mk.injEq]
  exact ⟨hvalue .minNodes, hvalue .maxNodes, hvalue .minDepth, hvalue .maxDepth, hways⟩

end Census

/-- Forests that stand for the same trees have the same census. -/
theorem Forest.census_eq_of_perm {K : Type u} {f f' : Forest K} (hf : f.SingleLeaves)
    (hf' : f'.SingleLeaves) (h : f.trees ~ f'.trees) : f.census = f'.census := by
  refine Census.eq_of_value_eq (fun b => ?_) ?_
  · exact (f.attains_census b).value_eq ((f'.attains_census b).congr fun _ => h.mem_iff.symm)
  · rw [hf.ways_census.2, hf'.ways_census.2, h.length_eq]

/-! ### Values of permuted keys -/

/-- If two lists have the same keys up to their order, and items with the same key the same value,
the lists have the same values up to their order. -/
theorem perm_map_of_perm_map {α : Type u} {β : Type v} {γ : Type w} {key : α → β} {value : α → γ}
    {l l' : List α} (h : l.map key ~ l'.map key)
    (hvalue : ∀ a ∈ l, ∀ b ∈ l', key a = key b → value a = value b) :
    l.map value ~ l'.map value := by
  induction l generalizing l' with
  | nil => rw [List.map_eq_nil_iff.1 h.symm.eq_nil, List.map_nil]
  | cons a l ih =>
    obtain ⟨b, hb, hkey⟩ := List.mem_map.1 (h.mem_iff.1 List.mem_cons_self)
    obtain ⟨front, back, rfl⟩ := List.append_of_mem hb
    have hrest : l.map key ~ (front ++ back).map key := by
      rw [List.map_cons, List.map_append, List.map_cons, hkey] at h
      rw [List.map_append]
      exact (h.trans List.perm_middle).cons_inv
    have hsubset : front ++ back ⊆ front ++ b :: back :=
      ((List.sublist_cons_self b back).append_left front).subset
    calc (a :: l).map value ~ value b :: (front ++ back).map value := by
          rw [List.map_cons, hvalue a List.mem_cons_self b hb hkey.symm]
          exact (ih hrest fun x hx y hy =>
            hvalue x (List.mem_cons_of_mem a hx) y (hsubset hy)).cons _
      _ ~ (front ++ b :: back).map value := by
          rw [List.map_append, List.map_append, List.map_cons]
          exact List.perm_middle.symm

end ChartParsing
