/-!
# Paths between numbered things

Things are numbered from 0 and each points to some others, in the tables here only to things with
smaller numbers.

## Main definitions

* `Reaches`: there is a path, possibly of no steps, from one number to another.

## Main results

* `reaches_iff`: a path by its first step.
* `Reaches.le`: paths lead down.
-/

namespace ChartParsing

/-- The relation `Reaches edges i j`: a path along `edges` leads from `i` to `j`. -/
inductive Reaches (edges : Nat → List Nat) : Nat → Nat → Prop where
  /-- The path without steps. -/
  | refl (i : Nat) : Reaches edges i i
  /-- A first step followed by a path. -/
  | step {i j k : Nat} (edge : j ∈ edges i) (path : Reaches edges j k) : Reaches edges i k

variable {edges : Nat → List Nat}

/-- A path has no steps, or a first one. -/
theorem reaches_iff {i k : Nat} :
    Reaches edges i k ↔ k = i ∨ ∃ j ∈ edges i, Reaches edges j k := by
  constructor
  · rintro (_ | ⟨edge, path⟩)
    · exact .inl rfl
    · exact .inr ⟨_, edge, path⟩
  · rintro (rfl | ⟨j, edge, path⟩)
    · exact .refl k
    · exact .step edge path

namespace Reaches

theorem trans {i j k : Nat} (hij : Reaches edges i j) (hjk : Reaches edges j k) :
    Reaches edges i k := by
  induction hij with
  | refl _ => exact hjk
  | step edge _ ih => exact .step edge (ih hjk)

theorem mono {edges' : Nat → List Nat} (more : ∀ i, ∀ j ∈ edges i, j ∈ edges' i) {i k : Nat}
    (h : Reaches edges i k) : Reaches edges' i k := by
  induction h with
  | refl i => exact .refl i
  | step edge _ ih => exact .step (more _ _ edge) ih

theorem le (down : ∀ i, ∀ j ∈ edges i, j < i) {i k : Nat} (h : Reaches edges i k) : k ≤ i := by
  induction h with
  | refl _ => exact Nat.le_refl _
  | step edge _ ih => exact Nat.le_trans ih (Nat.le_of_lt (down _ _ edge))

end Reaches

end ChartParsing
