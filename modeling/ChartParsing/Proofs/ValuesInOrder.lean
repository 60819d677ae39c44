import ChartParsing.Choices
import Mathlib.Data.Set.Card

/-!
# Values in the order of their arguments

A list may hold the values of a partial function, each as often as there are arguments for it, in
the order of the arguments. The choices from several such lists hold the values of lists of
arguments, in lexicographic order.

## Main definitions

* `ValuesInOrder`: a list holds the values of a partial function in order.
* `valueEach?`: the values for a list of arguments, one for each of several functions.

## Main results

* `ValuesInOrder.mem_iff`, `ValuesInOrder.encard_eq_count`: a value is there for its arguments.
* `valuesInOrder_getElem?`: a list holds what stands at its places.
* `valuesInOrder_choices`: the choices from lists of values.
* `valuesInOrder_flatMap`: lists of values one after another.
-/

namespace ChartParsing

universe u v w x

variable {α : Type u} {ι : Type v} {γ : Type w} {β : Type x}

/-- The list holds the values of a partial function, one for each argument that has a value, in the
order of these arguments. -/
def ValuesInOrder (value? : ι → Option α) (before : ι → ι → Prop) (values : List α) : Prop :=
  ∃ args : List ι, args.Pairwise before ∧ (∀ i, i ∈ args ↔ (value? i).isSome) ∧
    args.map value? = values.map some

namespace ValuesInOrder

variable {value? : ι → Option α} {before : ι → ι → Prop} {values : List α}

theorem mem_iff (h : ValuesInOrder value? before values) {a : α} :
    a ∈ values ↔ ∃ i, value? i = some a := by
  obtain ⟨args, -, hargs, heq⟩ := h
  have hmem : a ∈ values ↔ some a ∈ args.map value? := by
    rw [heq, List.mem_map_of_injective (Option.some_injective α)]
  rw [hmem, List.mem_map]
  exact ⟨fun ⟨i, _, hi⟩ => ⟨i, hi⟩, fun ⟨i, hi⟩ => ⟨i, (hargs i).2 (by rw [hi]; rfl), hi⟩⟩

/-- A value is there as often as there are arguments for it. -/
theorem encard_eq_count [DecidableEq α] (h : ValuesInOrder value? before values)
    (hirrefl : ∀ i, ¬before i i) (a : α) :
    {i | value? i = some a}.encard = values.count a := by
  classical
  obtain ⟨args, hsorted, hargs, heq⟩ := h
  have hnodup : args.Nodup := hsorted.imp fun {i j} hij => by
    rintro rfl
    exact hirrefl i hij
  have hset : {i | value? i = some a} = (args.filter (value? · = some a)).toFinset := by
    ext i
    have hmem : value? i = some a → i ∈ args := fun hi => (hargs i).2 (by rw [hi]; rfl)
    simpa using hmem
  have hcount : (args.filter (value? · = some a)).length = values.count a := by
    rw [← List.countP_eq_length_filter, ← List.count_map_of_injective values some
      (Option.some_injective α) a, ← heq, List.count, List.countP_map]
    exact List.countP_congr fun i _ => by simp
  rw [hset, Set.encard_coe_eq_coe_finsetCard, List.toFinset_card_of_nodup (hnodup.filter _), hcount]

/-- Arguments and values may be renamed. -/
theorem map {ι' : Type*} {value?' : ι' → Option β} {before' : ι' → ι' → Prop}
    (h : ValuesInOrder value? before values) (arg : ι → ι') (f : α → β)
    (hvalue : ∀ i, value?' (arg i) = (value? i).map f)
    (harg : ∀ j, (value?' j).isSome → ∃ i, arg i = j)
    (hbefore : ∀ i j, before i j → before' (arg i) (arg j)) :
    ValuesInOrder value?' before' (values.map f) := by
  obtain ⟨args, hsorted, hargs, heq⟩ := h
  refine ⟨args.map arg, List.pairwise_map.2 (hsorted.imp (hbefore _ _)), fun j => ?_, ?_⟩
  · rw [List.mem_map]
    constructor
    · rintro ⟨i, hi, rfl⟩
      rw [hvalue, Option.isSome_map]
      exact (hargs i).1 hi
    · intro hj
      obtain ⟨i, rfl⟩ := harg j hj
      rw [hvalue, Option.isSome_map] at hj
      exact ⟨i, (hargs i).2 hj, rfl⟩
  · calc (args.map arg).map value?' = args.map fun i => (value? i).map f := by
          simp only [List.map_map, Function.comp_def, hvalue]
      _ = (values.map f).map some := by
          rw [← Function.comp_def, ← List.map_map, heq]
          simp only [List.map_map, Function.comp_def, Option.map_some]

end ValuesInOrder

/-- A list holds what stands at its places. -/
theorem valuesInOrder_getElem? (l : List α) :
    ValuesInOrder (fun i : Nat => l[i]?) (· < ·) l := by
  refine ⟨List.range l.length, List.pairwise_lt_range, fun i => by simp, ?_⟩
  refine List.ext_getElem (by simp) fun i hi hi' => ?_
  have hlt : i < l.length := by simpa using hi'
  simp [hlt]

/-! ### Several lists -/

variable {value? : γ → ι → Option α} {before : ι → ι → Prop} {values : γ → List α} {xs : List γ}

/-- The values for a list of arguments, where each item has its own function. There are none unless
there are as many arguments as items and each argument has a value. -/
def valueEach? (value? : γ → ι → Option α) : List γ → List ι → Option (List α)
  | [], [] => some []
  | x :: xs, i :: is => (value? x i).bind fun a => (valueEach? value? xs is).map (a :: ·)
  | _, _ => none

private theorem isSome_valueEach?_cons {y : γ} {ys : List γ} {i : ι} {is : List ι} :
    (valueEach? value? (y :: ys) (i :: is)).isSome ↔
      (value? y i).isSome ∧ (valueEach? value? ys is).isSome := by
  rw [valueEach?]
  cases value? y i <;> simp

/-- One item in front of others: each of its values stands in front of all lists of values for the
others. -/
theorem valuesInOrder_valueEach?_cons {y : γ} {ys : List γ} {lists : List (List α)}
    (hy : ValuesInOrder (value? y) before (values y))
    (hys : ValuesInOrder (valueEach? value? ys) (List.Lex before) lists) :
    ValuesInOrder (valueEach? value? (y :: ys)) (List.Lex before)
      ((values y).flatMap fun a => lists.map (a :: ·)) := by
  obtain ⟨heads, hheads, hmemHeads, heqHeads⟩ := hy
  obtain ⟨tails, htails, hmemTails, heqTails⟩ := hys
  refine ⟨heads.flatMap fun i => tails.map (i :: ·), ?_, fun is => ?_, ?_⟩
  · rw [List.pairwise_flatMap]
    refine ⟨fun i _ => List.pairwise_map.2 (htails.imp .cons), hheads.imp fun {i j} hij => ?_⟩
    intro is his js hjs
    obtain ⟨_, -, rfl⟩ := List.mem_map.1 his
    obtain ⟨_, -, rfl⟩ := List.mem_map.1 hjs
    exact .rel hij
  · cases is with
    | nil => simp [valueEach?]
    | cons i is => simp [isSome_valueEach?_cons, hmemHeads, hmemTails]
  · have hrow : ∀ a : α, (tails.map fun is => (valueEach? value? ys is).map (a :: ·)) =
        (lists.map (a :: ·)).map some := fun a => by
      rw [← Function.comp_def, ← List.map_map, heqTails, List.map_map, List.map_map]
      rfl
    calc (heads.flatMap fun i => tails.map (i :: ·)).map (valueEach? value? (y :: ys))
        = (heads.map (value? y)).flatMap fun o => tails.map fun is =>
            o.bind fun a => (valueEach? value? ys is).map (a :: ·) := by
          rw [List.map_flatMap, List.flatMap_map]
          simp only [List.map_map, Function.comp_def, valueEach?]
      _ = ((values y).flatMap fun a => lists.map (a :: ·)).map some := by
          rw [heqHeads, List.flatMap_map, List.map_flatMap]
          simp only [Option.bind_some, hrow]

/-- **Choices are in lexicographic order.** The choices from several lists of values are the values
of lists of arguments, the first argument varying slowest. -/
theorem valuesInOrder_choices (h : ∀ y ∈ xs, ValuesInOrder (value? y) before (values y)) :
    ValuesInOrder (valueEach? value? xs) (List.Lex before) (choices (xs.map values)) := by
  induction xs with
  | nil =>
    refine ⟨[[]], List.pairwise_singleton _ _, fun is => ?_, rfl⟩
    cases is <;> simp [valueEach?]
  | cons y ys ih =>
    rw [List.forall_mem_cons] at h
    rw [List.map_cons, choices_cons]
    exact valuesInOrder_valueEach?_cons h.1 (ih h.2)

/-- One item more: its arguments come after those of the items so far. -/
theorem valuesInOrder_flatMap_concat {y : γ}
    (hxs : ValuesInOrder (fun p : Nat × ι => xs[p.1]?.bind fun y => value? y p.2)
      (Prod.Lex (· < ·) before) (xs.flatMap values))
    (hy : ValuesInOrder (value? y) before (values y)) :
    ValuesInOrder (fun p : Nat × ι => (xs ++ [y])[p.1]?.bind fun y => value? y p.2)
      (Prod.Lex (· < ·) before) ((xs ++ [y]).flatMap values) := by
  obtain ⟨front, hfront, hmemFront, heqFront⟩ := hxs
  obtain ⟨last, hlast, hmemLast, heqLast⟩ := hy
  -- The arguments so far have places in front of the last one.
  have hlt : ∀ p ∈ front, p.1 < xs.length := fun p hp => by
    obtain ⟨a, ha⟩ := Option.isSome_iff_exists.1 ((hmemFront p).1 hp)
    obtain ⟨y', hy', -⟩ := Option.bind_eq_some_iff.1 ha
    exact (List.getElem?_eq_some_iff.1 hy').1
  refine ⟨front ++ last.map (xs.length, ·), ?_, fun p => ?_, ?_⟩
  · refine List.pairwise_append.2 ⟨hfront, List.pairwise_map.2 (hlast.imp (.right _)), ?_⟩
    intro p hp q hq
    obtain ⟨i, -, rfl⟩ := List.mem_map.1 hq
    exact .left _ _ (hlt p hp)
  · obtain ⟨n, i⟩ := p
    rw [List.mem_append, hmemFront, List.mem_map]
    rcases Nat.lt_trichotomy n xs.length with hn | rfl | hn
    · simp [List.getElem?_append_left hn, hn.ne']
    · simp [hmemLast]
    · have hnone : (xs ++ [y])[n]? = none := List.getElem?_eq_none (by simp; omega)
      simp [hnone, List.getElem?_eq_none hn.le, hn.ne]
  · rw [List.map_append, List.flatMap_append, List.map_append, List.flatMap_singleton, ← heqFront,
      ← heqLast, List.map_map]
    congr 1
    · refine List.map_congr_left fun p hp => ?_
      rw [List.getElem?_append_left (hlt p hp)]
    · refine List.map_congr_left fun i _ => ?_
      simp

/-- Lists of values one after another hold the values of numbered arguments: the place of an item,
and an argument for it. -/
theorem valuesInOrder_flatMap (h : ∀ y ∈ xs, ValuesInOrder (value? y) before (values y)) :
    ValuesInOrder (fun p : Nat × ι => xs[p.1]?.bind fun y => value? y p.2)
      (Prod.Lex (· < ·) before) (xs.flatMap values) := by
  induction xs using List.reverseRecOn with
  | nil => exact ⟨[], .nil, fun p => by simp, rfl⟩
  | append_singleton xs y ih =>
    rw [List.forall_mem_append, List.forall_mem_singleton] at h
    exact valuesInOrder_flatMap_concat (ih h.1) h.2

end ChartParsing
