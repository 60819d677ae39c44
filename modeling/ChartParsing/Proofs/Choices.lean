import ChartParsing.Choices
import Mathlib.Data.List.Nodup

/-!
# Choices and the lists they are made from

How the choices from lists of options change with the lists, and what the choices have of them.

## Main results

* `exists_mem_of_mem_choices`, `mem_choices_pair`: what is chosen.
* `choices_map`, `choices_append`: choices from mapped lists, and from more lists.
* `foldl_appendEach`, `combinations_eq_choices`: what is chosen, put together list by list.
* `choices_ne_nil`, `exists_mem_choices_of_mem`, `nodup_choices`: there are choices, with every
  option, and none twice.
* `count_nil_flatMap_choices`: how often nothing is chosen.
-/

namespace ChartParsing

universe u v

variable {α : Type u} {β : Type v}

theorem exists_mem_of_mem_choices {optionLists : List (List α)} {l : List α}
    (h : l ∈ choices optionLists) {a : α} (ha : a ∈ l) : ∃ options ∈ optionLists, a ∈ options := by
  induction optionLists generalizing l with
  | nil =>
    rw [mem_choices_nil] at h
    subst h
    cases ha
  | cons options rest ih =>
    obtain ⟨b, hb, m, hm, rfl⟩ := mem_choices_cons.1 h
    rcases List.mem_cons.1 ha with rfl | ha
    · exact ⟨options, List.mem_cons_self, hb⟩
    · obtain ⟨options', hmem, ha'⟩ := ih hm ha
      exact ⟨options', List.mem_cons_of_mem options hmem, ha'⟩

theorem mem_choices_pair {l : List α} {as bs : List α} :
    l ∈ choices [as, bs] ↔ ∃ a ∈ as, ∃ b ∈ bs, l = [a, b] := by
  simp only [mem_choices_cons, mem_choices_nil, exists_eq_left]
  constructor
  · rintro ⟨a, ha, _, ⟨b, hb, rfl⟩, rfl⟩
    exact ⟨a, ha, b, hb, rfl⟩
  · rintro ⟨a, ha, b, hb, rfl⟩
    exact ⟨a, ha, _, ⟨b, hb, rfl⟩, rfl⟩

theorem choices_map (f : α → β) (optionLists : List (List α)) :
    choices (optionLists.map (List.map f)) = (choices optionLists).map (List.map f) := by
  induction optionLists with
  | nil => rfl
  | cons options rest ih =>
    rw [List.map_cons, choices_cons, choices_cons, ih, List.flatMap_map, List.map_flatMap]
    simp only [List.map_map, Function.comp_def, List.map_cons]

theorem choices_append (ls ms : List (List α)) :
    choices (ls ++ ms) = (choices ls).flatMap fun l => (choices ms).map (l ++ ·) := by
  induction ls with
  | nil => simp
  | cons options rest ih =>
    simp only [List.cons_append, choices_cons, ih, List.flatMap_assoc, List.flatMap_map,
      List.map_flatMap, List.map_map, Function.comp_def]

/-- Putting every option in front of every choice from the other lists gives all choices, each put
together. -/
theorem foldl_appendEach (fronts : List (List α)) (optionLists : List (List (List α))) :
    optionLists.foldl appendEach fronts =
      appendEach fronts ((choices optionLists).map List.flatten) := by
  induction optionLists generalizing fronts with
  | nil => simp [appendEach]
  | cons options rest ih =>
    rw [List.foldl_cons, ih]
    simp only [appendEach, choices_cons, List.flatMap_assoc, List.flatMap_map, List.map_flatMap,
      List.map_map, Function.comp_def, List.flatten_cons, List.append_assoc]

private theorem extendEach_eq_appendEach (fronts : List (List α)) (options : List α) :
    extendEach fronts options = appendEach fronts (options.map ([·])) := by
  simp only [extendEach, appendEach, List.map_map, Function.comp_def]

/-- Extending what has been picked list by list gives the choices, in the same order. -/
theorem combinations_eq_choices (optionLists : List (List α)) :
    combinations optionLists = choices optionLists := by
  have hsteps : combinations optionLists =
      (optionLists.map (List.map ([·]))).foldl appendEach [[]] := by
    rw [combinations, List.foldl_map, funext₂ extendEach_eq_appendEach]
  rw [hsteps, foldl_appendEach, choices_map]
  simp [appendEach, Function.comp_def, ← List.flatMap_def]

theorem choices_ne_nil {optionLists : List (List α)} (h : [] ∉ optionLists) :
    choices optionLists ≠ [] := by
  induction optionLists with
  | nil => exact List.cons_ne_nil _ _
  | cons options rest ih =>
    rw [List.mem_cons, not_or] at h
    obtain ⟨a, ha⟩ := List.exists_mem_of_ne_nil options (Ne.symm h.1)
    obtain ⟨l, hl⟩ := List.exists_mem_of_ne_nil (choices rest) (ih h.2)
    exact List.ne_nil_of_mem (mem_choices_cons.2 ⟨a, ha, l, hl, rfl⟩)

/-- If there are choices at all, there is one with any given option. -/
theorem exists_mem_choices_of_mem {optionLists : List (List α)} (h : [] ∉ optionLists)
    {options : List α} (hmem : options ∈ optionLists) {a : α} (ha : a ∈ options) :
    ∃ l ∈ choices optionLists, a ∈ l := by
  induction optionLists with
  | nil => cases hmem
  | cons first rest ih =>
    rw [List.mem_cons, not_or] at h
    rcases List.mem_cons.1 hmem with rfl | hmem
    · obtain ⟨l, hl⟩ := List.exists_mem_of_ne_nil _ (choices_ne_nil h.2)
      exact ⟨a :: l, mem_choices_cons.2 ⟨a, ha, l, hl, rfl⟩, List.mem_cons_self⟩
    · obtain ⟨b, hb⟩ := List.exists_mem_of_ne_nil first (Ne.symm h.1)
      obtain ⟨l, hl, hal⟩ := ih h.2 hmem
      exact ⟨b :: l, mem_choices_cons.2 ⟨b, hb, l, hl, rfl⟩, List.mem_cons_of_mem b hal⟩

/-- Nothing is chosen where there are no lists, and only there. -/
theorem count_nil_flatMap_choices [DecidableEq α] [DecidableEq β] (values : β → List α)
    (alternatives : List (List β)) :
    (alternatives.flatMap fun items => choices (items.map values)).count [] =
      alternatives.count [] := by
  induction alternatives with
  | nil => rfl
  | cons items rest ih =>
    rw [List.flatMap_cons, List.count_append, ih]
    cases items with
    | nil => rw [List.map_nil, choices_nil, List.count_singleton_self, List.count_cons_self,
        Nat.add_comm]
    | cons item items =>
      have hnil : [] ∉ choices ((item :: items).map values) := by simp
      rw [List.count_eq_zero.2 hnil, Nat.zero_add, List.count_cons_of_ne (List.cons_ne_nil _ _)]

/-- Choices from lists without repeats are without repeats. -/
theorem nodup_choices {optionLists : List (List α)}
    (h : ∀ options ∈ optionLists, options.Nodup) : (choices optionLists).Nodup := by
  induction optionLists with
  | nil => exact List.nodup_singleton []
  | cons options rest ih =>
    rw [List.forall_mem_cons] at h
    rw [choices_cons, List.nodup_flatMap]
    refine ⟨fun a _ => (ih h.2).map (List.cons_injective), h.1.imp fun hne => ?_⟩
    refine List.disjoint_left.2 fun l hl hl' => ?_
    obtain ⟨_, -, rfl⟩ := List.mem_map.1 hl
    obtain ⟨_, -, heq⟩ := List.mem_map.1 hl'
    exact hne (List.cons.inj heq).1.symm

end ChartParsing
