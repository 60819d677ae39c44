/-!
# Choosing one option from each list

## Main definitions

* `choices`: every way to pick one option from each list of options, the first list varying
  slowest.
* `combinations`: the same, put together from the first list on.

## Main results

* `mem_choices_nil`, `mem_choices_cons`: a choice picks one option from each list.
* `length_choices`: the number of choices is the product of the numbers of options.
-/

namespace ChartParsing

universe u

variable {α : Type u}

/-- Every head in front of every tail, the heads varying slowest. -/
def consEach (heads : List α) (tails : List (List α)) : List (List α) :=
  heads.flatMap fun head => tails.map (head :: ·)

/-- Every list of `fronts` in front of every one of `backs`, the fronts varying slowest. -/
def appendEach (fronts backs : List (List α)) : List (List α) :=
  fronts.flatMap fun front => backs.map (front ++ ·)

/-- Every way to pick one option from each list, in lexicographic order of the picked positions. -/
def choices : List (List α) → List (List α)
  | [] => [[]]
  | options :: rest => consEach options (choices rest)

/-- Every option behind every list of `fronts`, the fronts varying slowest. -/
def extendEach (fronts : List (List α)) (options : List α) : List (List α) :=
  fronts.flatMap fun front => options.map fun option => front ++ [option]

/-- Every way to pick one option from each list. What has been picked is extended list by list. -/
def combinations (optionLists : List (List α)) : List (List α) :=
  optionLists.foldl extendEach [[]]

@[simp] theorem choices_nil : choices ([] : List (List α)) = [[]] := rfl

@[simp] theorem choices_cons (options : List α) (rest : List (List α)) :
    choices (options :: rest) = options.flatMap fun a => (choices rest).map (a :: ·) := rfl

theorem mem_choices_nil {l : List α} : l ∈ choices [] ↔ l = [] := by simp

theorem mem_choices_cons {l : List α} {options : List α} {rest : List (List α)} :
    l ∈ choices (options :: rest) ↔ ∃ a ∈ options, ∃ m ∈ choices rest, l = a :: m := by
  simp only [choices_cons, List.mem_flatMap, List.mem_map]
  exact ⟨fun ⟨a, ha, m, hm, e⟩ => ⟨a, ha, m, hm, e.symm⟩,
    fun ⟨a, ha, m, hm, e⟩ => ⟨a, ha, m, hm, e.symm⟩⟩

theorem length_choices (optionLists : List (List α)) :
    (choices optionLists).length = (optionLists.map List.length).foldr (· * ·) 1 := by
  induction optionLists with
  | nil => rfl
  | cons options rest ih => simp [List.length_flatMap, ih, List.map_const']

end ChartParsing
