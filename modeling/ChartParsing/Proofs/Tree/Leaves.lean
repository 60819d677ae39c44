import ChartParsing.Tree.Basic
import Mathlib.Logic.Function.Iterate

/-!
# The leaves of a tree, read with a stack

What has been read and what the pending trees hold are together the same in every round: these are
the leaves of the tree from left to right. Each round takes one node or leaf off the stack for good,
however many subtrees it puts there, so the rounds are as many as the tree has nodes and leaves.

## Main definitions

* `Tree.Reading.all`: the leaves read so far, and those of the pending trees.

## Main results

* `Tree.frontierOfList_eq`, `Tree.frontierOfList_append`: the leaves of several trees.
* `Tree.Reading.all_step`, `Tree.Reading.finish_eq`: the leaves of a reading, in a round and at the
  end.
* `Tree.Reading.pending_iterate_step_eq_nil_iff`: the number of rounds.
* `Tree.reading_ends`: the leaves are read from left to right.
-/

namespace ChartParsing

universe u

namespace Tree

variable {K : Type u}

/-! ### Leaves of several trees -/

theorem frontierOfList_eq (ts : List (Tree K)) : frontierOfList ts = ts.flatMap frontier := by
  induction ts with
  | nil => rfl
  | cons t ts ih => rw [frontierOfList, ih, List.flatMap_cons]

theorem frontierOfList_append (ss ts : List (Tree K)) :
    frontierOfList (ss ++ ts) = frontierOfList ss ++ frontierOfList ts := by
  simp only [frontierOfList_eq, List.flatMap_append]

private theorem sizeOfList_eq_zero_iff {ts : List (Tree K)} : sizeOfList ts = 0 ↔ ts = [] := by
  cases ts with
  | nil => simp [sizeOfList]
  | cons t ts =>
    have := size_pos t
    simp only [sizeOfList, reduceCtorEq, iff_false]
    omega

namespace Reading

/-! ### Rounds -/

/-- The leaves of a reading: those read so far, and then those of the pending trees. -/
def all (r : Reading K) : List K := r.leaves ++ frontierOfList r.pending

/-- A round leaves the leaves of a reading as they are. -/
theorem all_step (r : Reading K) : r.step.all = r.all := by
  obtain ⟨pending, leaves⟩ := r
  cases pending with
  | nil => rfl
  | cons t rest =>
    cases t with
    | leaf key => simp only [all, step, frontierOfList, frontier, List.append_assoc]
    | node key children =>
      simp only [all, step, pushEach_reverse, frontierOfList_append, frontierOfList, frontier]

/-- In the end all leaves have been read. -/
theorem finish_eq (r : Reading K) : r.finish = r.all := by
  fun_induction finish r with
  | case1 r hnil => rw [all, List.isEmpty_iff.1 hnil, frontierOfList, List.append_nil]
  | case2 r hpending ih => rw [ih, all_step]

private theorem step_of_pending_eq_nil {r : Reading K} (h : r.pending = []) : r.step = r := by
  rw [step, h]

theorem sizeOfList_pending_step_eq (r : Reading K) :
    sizeOfList r.step.pending = sizeOfList r.pending - 1 := by
  by_cases h : r.pending = []
  · rw [step_of_pending_eq_nil h, h, sizeOfList]
  · have := sizeOfList_pending_step h
    omega

private theorem all_iterate_step (r : Reading K) (rounds : Nat) :
    (step^[rounds] r).all = r.all := by
  induction rounds with
  | zero => rfl
  | succ rounds ih => rw [Function.iterate_succ_apply', all_step, ih]

/-- Each round takes one node or leaf off the stack. -/
theorem sizeOfList_pending_iterate_step (r : Reading K) (rounds : Nat) :
    sizeOfList (step^[rounds] r).pending = sizeOfList r.pending - rounds := by
  induction rounds with
  | zero => rfl
  | succ rounds ih =>
    rw [Function.iterate_succ_apply', sizeOfList_pending_step_eq, ih, Nat.sub_sub]

/-- Nothing is pending once there were as many rounds as nodes and leaves. -/
theorem pending_iterate_step_eq_nil_iff (r : Reading K) (rounds : Nat) :
    (step^[rounds] r).pending = [] ↔ sizeOfList r.pending ≤ rounds := by
  rw [← sizeOfList_eq_zero_iff, sizeOfList_pending_iterate_step, Nat.sub_eq_zero_iff_le]

end Reading

/-! ### Trees -/

theorem leavesOf_eq_frontierOfList (ts : List (Tree K)) : leavesOf ts = frontierOfList ts := by
  rw [leavesOf, Reading.finish_eq, Reading.all, Reading.start, List.nil_append]

theorem leavesOf_append (ss ts : List (Tree K)) :
    leavesOf (ss ++ ts) = leavesOf ss ++ leavesOf ts := by
  simp only [leavesOf_eq_frontierOfList, frontierOfList_append]

theorem leaves_eq_frontier (t : Tree K) : t.leaves = t.frontier := by
  rw [leaves, leavesOf_eq_frontierOfList, frontierOfList, frontierOfList, List.append_nil]

theorem leavesOf_eq_flatMap (ts : List (Tree K)) : leavesOf ts = ts.flatMap leaves := by
  rw [leavesOf_eq_frontierOfList, frontierOfList_eq, funext leaves_eq_frontier]

theorem leavesOf_singleton_node (key : K) (children : List (Tree K)) :
    leavesOf [.node key children] = leavesOf children := by
  rw [← leaves, leaves_eq_frontier, frontier, leavesOf_eq_frontierOfList]

/-- A tree is read in as many rounds as it has nodes and leaves. What is read is what the recursion
on the tree gives: a leaf has its own key, and a node has the leaves of its children in order. -/
theorem reading_ends (t : Tree K) :
    (∀ rounds, (Reading.step^[rounds] (.start [t])).pending = [] ↔ t.size ≤ rounds) ∧
      (Reading.step^[t.size] (.start [t])).leaves = t.leaves ∧
      t.leaves = t.frontier ∧
      t.leaves = match t with
        | .leaf key => [key]
        | .node _ children => children.flatMap leaves := by
  have hrounds : ∀ rounds, (Reading.step^[rounds] (.start [t])).pending = [] ↔ t.size ≤ rounds :=
    Reading.pending_iterate_step_eq_nil_iff (.start [t])
  have hread : (Reading.step^[t.size] (.start [t])).leaves = t.leaves := by
    have hall := Reading.all_iterate_step (.start [t]) t.size
    rw [Reading.all, (hrounds t.size).2 (Nat.le_refl _), frontierOfList, List.append_nil] at hall
    rw [hall, leaves, leavesOf, Reading.finish_eq]
  refine ⟨hrounds, hread, leaves_eq_frontier t, ?_⟩
  cases t with
  | leaf key => exact leaves_eq_frontier _
  | node key children => exact (leavesOf_singleton_node key children).trans (leavesOf_eq_flatMap _)

end Tree

end ChartParsing
