/-!
# Lists without repeats

First occurrences of the items of a list, and pairs grouped by their first component. Repeats are
found in one of two ways: a list that is built item by item is searched itself, and a list that is
there already is passed once, with the set of the items seen so far. Both give the same list.

## Main definitions

* `ItemSet`: sets that are known by what they hold.
* `pushNew`: append an item that is not in the list yet.
* `Sifting`: the items kept so far, and the set of those seen.
* `distinct`: the first occurrences of the items of a list, in order.
* `grouped`: for each distinct first component, the second components that come with it.

## Main results

* `ItemSet.contains_ofList`: the set of a list holds the items of the list.
* `Sifting.Agrees.add`, `distinct_eq_foldl_pushNew`: what has been seen is what has been kept.
* `mem_distinct`, `nodup_distinct`: the distinct items are the items, each once.
* `map_fst_grouped`: there is one group for each distinct first component.
-/

namespace ChartParsing

universe u v

/-- A set of items. Nothing is known of it but what it holds. -/
structure ItemSet (α : Type u) where
  /-- Whether an item is in the set. -/
  contains : α → Bool

variable {α : Type u} {β : Type v} [DecidableEq α]

/-! ### Sets -/

namespace ItemSet

omit [DecidableEq α] in
theorem ext_contains {s t : ItemSet α} (h : ∀ a, s.contains a = true ↔ t.contains a = true) :
    s = t := by
  obtain ⟨contains⟩ := s
  obtain ⟨contains'⟩ := t
  exact congrArg mk (funext fun a => Bool.eq_iff_iff.2 (h a))

/-- The set without items. -/
def empty : ItemSet α := ⟨fun _ => false⟩

/-- The set with one more item. -/
def insert (s : ItemSet α) (a : α) : ItemSet α := ⟨fun b => decide (b = a) || s.contains b⟩

/-- The set of the items of a list. -/
def ofList (l : List α) : ItemSet α := l.foldl insert empty

theorem contains_insert {s : ItemSet α} {a b : α} :
    (s.insert a).contains b = true ↔ s.contains b = true ∨ b = a := by
  simp [insert, or_comm]

private theorem contains_foldl_insert {l : List α} {s : ItemSet α} {b : α} :
    (l.foldl insert s).contains b = true ↔ s.contains b = true ∨ b ∈ l := by
  induction l generalizing s with
  | nil => simp
  | cons a l ih => rw [List.foldl_cons, ih, contains_insert, List.mem_cons, or_assoc]

theorem contains_ofList {l : List α} {a : α} : (ofList l).contains a = true ↔ a ∈ l := by
  simp [ofList, contains_foldl_insert, empty]

end ItemSet

/-! ### First occurrences -/

/-- The list with `a` appended, or the list itself when it already holds `a`. -/
def pushNew (l : List α) (a : α) : List α :=
  if a ∈ l then l else l ++ [a]

/-- A list that is being passed: the set of the items seen so far, and the items kept of them. -/
structure Sifting (α : Type u) where
  /-- The items seen so far. -/
  seen : ItemSet α
  /-- The items kept so far, in order. -/
  kept : List α

/-- Keep an item if it is seen for the first time. -/
def Sifting.add (s : Sifting α) (a : α) : Sifting α :=
  if s.seen.contains a then s else ⟨s.seen.insert a, s.kept ++ [a]⟩

/-- The first occurrences of the items of a list, in order. -/
def distinct (l : List α) : List α :=
  (l.foldl Sifting.add ⟨.empty, []⟩).kept

namespace Sifting

/-- The items seen so far are those that were kept. -/
def Agrees (s : Sifting α) : Prop := ∀ a, s.seen.contains a = true ↔ a ∈ s.kept

variable {s : Sifting α}

private theorem Agrees.kept_add (h : s.Agrees) (a : α) : (s.add a).kept = pushNew s.kept a := by
  by_cases hseen : s.seen.contains a = true
  · rw [add, if_pos hseen, pushNew, if_pos ((h a).1 hseen)]
  · rw [add, if_neg hseen, pushNew, if_neg (mt (h a).2 hseen)]

theorem Agrees.add (h : s.Agrees) (a : α) : (s.add a).Agrees := by
  intro b
  by_cases hseen : s.seen.contains a = true
  · rw [Sifting.add, if_pos hseen]
    exact h b
  · rw [Sifting.add, if_neg hseen, ItemSet.contains_insert, h b, List.mem_append,
      List.mem_singleton]

private theorem Agrees.kept_foldl_add (h : s.Agrees) (l : List α) :
    (l.foldl Sifting.add s).kept = l.foldl pushNew s.kept := by
  induction l generalizing s with
  | nil => rfl
  | cons a l ih => rw [List.foldl_cons, List.foldl_cons, ih (h.add a), h.kept_add]

end Sifting

/-- The set of the items seen may be left out: the items kept tell as much. -/
theorem distinct_eq_foldl_pushNew (l : List α) : distinct l = l.foldl pushNew [] :=
  Sifting.Agrees.kept_foldl_add (fun a => by simp [ItemSet.empty]) l

@[simp] theorem mem_pushNew {l : List α} {a b : α} : b ∈ pushNew l a ↔ b ∈ l ∨ b = a := by
  by_cases h : a ∈ l
  · simp only [pushNew, h, if_true]
    exact ⟨.inl, fun hb => hb.elim id fun e => e ▸ h⟩
  · simp [pushNew, h]

theorem pushNew_of_mem {l : List α} {a : α} (h : a ∈ l) : pushNew l a = l := by
  simp [pushNew, h]

theorem nodup_pushNew {l : List α} (h : l.Nodup) (a : α) : (pushNew l a).Nodup := by
  by_cases ha : a ∈ l
  · simpa [pushNew, ha] using h
  · simp only [pushNew, ha, if_false]
    refine List.nodup_append.2 ⟨h, by simp, fun x hx y hy e => ha ?_⟩
    simp only [List.mem_singleton] at hy
    exact hy ▸ e ▸ hx

private theorem mem_foldl_pushNew {l m : List α} {b : α} :
    b ∈ l.foldl pushNew m ↔ b ∈ m ∨ b ∈ l := by
  induction l generalizing m with
  | nil => simp
  | cons a l ih => simp [ih, or_assoc]

private theorem nodup_foldl_pushNew {l m : List α} (h : m.Nodup) :
    (l.foldl pushNew m).Nodup := by
  induction l generalizing m with
  | nil => exact h
  | cons a l ih => exact ih (nodup_pushNew h a)

@[simp] theorem mem_distinct {l : List α} {b : α} : b ∈ distinct l ↔ b ∈ l := by
  simp [distinct_eq_foldl_pushNew, mem_foldl_pushNew]

theorem nodup_distinct (l : List α) : (distinct l).Nodup :=
  distinct_eq_foldl_pushNew l ▸ nodup_foldl_pushNew List.nodup_nil

theorem distinct_concat (l : List α) (a : α) : distinct (l ++ [a]) = pushNew (distinct l) a := by
  simp [distinct_eq_foldl_pushNew, List.foldl_append]

/-! ### Groups -/

/-- The second components of the pairs whose first component is `a`, in order. -/
def valuesAt (a : α) (pairs : List (α × β)) : List β :=
  pairs.filterMap fun pair => if pair.1 = a then some pair.2 else none

/-- For each distinct first component, in order, the second components that come with it. -/
def grouped (pairs : List (α × β)) : List (α × List β) :=
  (distinct (pairs.map Prod.fst)).map fun a => (a, valuesAt a pairs)

@[simp] theorem mem_valuesAt {a : α} {b : β} {pairs : List (α × β)} :
    b ∈ valuesAt a pairs ↔ (a, b) ∈ pairs := by
  simp only [valuesAt, List.mem_filterMap]
  constructor
  · rintro ⟨⟨x, y⟩, hmem, h⟩
    split at h
    · next hx => cases h; exact hx ▸ hmem
    · cases h
  · exact fun h => ⟨(a, b), h, by simp⟩

@[simp] theorem grouped_nil : grouped ([] : List (α × β)) = [] := rfl

theorem map_fst_grouped (pairs : List (α × β)) :
    (grouped pairs).map Prod.fst = distinct (pairs.map Prod.fst) := by
  simp [grouped, Function.comp_def]

end ChartParsing
