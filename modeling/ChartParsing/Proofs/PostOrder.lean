import ChartParsing.Descent
import ChartParsing.PostOrder

/-!
# Every run in post-order ends

Where numbers rest on smaller ones, a run over the numbers on a stack comes to an end: the rounds
for a number lead to the rest of the stack with the number and all below it visited, whatever had
been visited before. The proof is by induction on the number, with the rest of the stack left
arbitrary: what a number puts onto the stack above itself is smaller, and is worked off before the
number is met again. As it is done from then on, it puts them there only once, which bounds the
rounds.

## Main definitions

* `PostOrder.Visited`: what the visits between two states were.
* `PostOrder.Lawful`: what single visits have to satisfy.

## Main results

* `PostOrder.Lawful.isDone_of_reaches`: what is done is done with all below it.
* `PostOrder.Lawful.exists_run?_cons_eq`: the rounds for a number on the stack.
* `PostOrder.Lawful.exists_visitFrom?_eq_some`: the visits for one number succeed.
* `PostOrder.visitFrom?_with_visit?`: visits that succeed where others do lead to the same state.
-/

namespace ChartParsing

universe u

/-! ### Results by number -/

section Results

variable {α : Type u}

theorem join_getElem?_replicate (size i : Nat) :
    (Array.replicate size (none : Option α))[i]?.join = none := by
  rw [Array.getElem?_replicate]
  split <;> rfl

theorem join_getElem?_setIfInBounds {results : Array (Option α)} {i : Nat}
    (hi : i < results.size) (a : α) (j : Nat) :
    (results.setIfInBounds i (some a))[j]?.join = if i = j then some a else results[j]?.join := by
  rw [Array.getElem?_setIfInBounds]
  split <;> rfl

end Results

namespace PostOrder

variable {σ : Type u}

/-! ### What is left to push -/

private theorem pushes_congr {p : PostOrder σ} {s s' : σ} {k : Nat}
    (h : p.isDone s k ↔ p.isDone s' k) : p.pushes s k = p.pushes s' k := by
  simp only [pushes, h]

private theorem toPush_congr {p : PostOrder σ} {size : Nat} {s s' : σ}
    (h : ∀ k < size, p.isDone s k ↔ p.isDone s' k) : p.toPush size s = p.toPush size s' := by
  induction size with
  | zero => rfl
  | succ size ih =>
    rw [toPush, toPush, ih fun k hk => h k (Nat.lt_succ_of_lt hk),
      pushes_congr (h size (Nat.lt_succ_self size))]

private theorem toPush_eq_add {p : PostOrder σ} {size i : Nat} {s s' : σ} (hi : i < size)
    (hnot : ¬p.isDone s i) (hdone : ∀ k, p.isDone s' k ↔ p.isDone s k ∨ k = i) :
    p.toPush size s = p.toPush size s' + ((p.below i).length + 1) := by
  have hother : ∀ k, k ≠ i → (p.isDone s k ↔ p.isDone s' k) := fun k hk => by
    rw [hdone, or_iff_left hk]
  induction size with
  | zero => exact absurd hi (Nat.not_lt_zero i)
  | succ size ih =>
    rw [toPush, toPush]
    by_cases hlt : i < size
    · rw [ih hlt, pushes_congr (hother size (by omega))]
      omega
    · obtain rfl : i = size := by omega
      have hbefore : p.pushes s i = (p.below i).length + 1 := if_neg hnot
      have hafter : p.pushes s' i = 0 := if_pos ((hdone i).2 (.inr rfl))
      rw [toPush_congr fun k hk => hother k (Nat.ne_of_lt hk), hbefore, hafter]
      rfl

/-! ### Visits -/

/-- Visits to the numbers in `more` lead from the state `s` to the state `s'`. -/
structure Visited (p : PostOrder σ) (Valid : σ → Prop) (Keeps : σ → σ → Prop) (s s' : σ)
    (more : Nat → Prop) : Prop where
  /-- The later state is valid. -/
  valid : Valid s'
  /-- Earlier results are as they were. -/
  kept : Keeps s s'
  /-- What is done in the later state. -/
  isDone_iff : ∀ k, p.isDone s' k ↔ p.isDone s k ∨ more k

theorem Visited.congr {p : PostOrder σ} {Valid : σ → Prop} {Keeps : σ → σ → Prop} {s s' : σ}
    {more more' : Nat → Prop} (h : p.Visited Valid Keeps s s' more)
    (hmore : ∀ k, ¬p.isDone s k → (more k ↔ more' k)) : p.Visited Valid Keeps s s' more' where
  valid := h.valid
  kept := h.kept
  isDone_iff k := by
    rw [h.isDone_iff]
    by_cases hk : p.isDone s k
    · exact iff_of_true (.inl hk) (.inl hk)
    · exact or_congr_right (hmore k hk)

/-- Visits to the numbers below `size` succeed in valid states, each after those to the numbers that
it rests on. -/
structure Lawful (p : PostOrder σ) (size : Nat) (Valid : σ → Prop) (Keeps : σ → σ → Prop) :
    Prop where
  /-- A number rests on smaller ones. -/
  below_lt : ∀ i, ∀ j ∈ p.below i, j < i
  /-- A state keeps its own results. -/
  refl : ∀ s, Keeps s s
  /-- What is kept twice is kept. -/
  trans : ∀ {s s' s''}, Keeps s s' → Keeps s' s'' → Keeps s s''
  /-- What a number rests on is done before it. -/
  isDone_below : ∀ {s i}, Valid s → p.isDone s i → ∀ j ∈ p.below i, p.isDone s j
  /-- A visit succeeds if the number is not done but all that it rests on is. -/
  exists_visit? : ∀ {s i}, Valid s → i < size → ¬p.isDone s i →
    (∀ j ∈ p.below i, p.isDone s j) → ∃ s', p.visit? s i = some s' ∧
      p.Visited Valid Keeps s s' (· = i)

namespace Lawful

variable {p : PostOrder σ} {size : Nat} {Valid : σ → Prop} {Keeps : σ → σ → Prop} {s : σ}

/-- What is done is done with all below it. -/
theorem isDone_of_reaches (h : p.Lawful size Valid Keeps) (hs : Valid s) {i k : Nat}
    (hreach : Reaches p.below i k) (hi : p.isDone s i) : p.isDone s k := by
  induction hreach with
  | refl _ => exact hi
  | step edge _ ih => exact ih (h.isDone_below hs hi _ edge)

theorem visited_refl (h : p.Lawful size Valid Keeps) (hs : Valid s) {more : Nat → Prop}
    (hmore : ∀ k, more k → p.isDone s k) : p.Visited Valid Keeps s s more where
  valid := hs
  kept := h.refl s
  isDone_iff k := ⟨.inl, fun hk => hk.elim id (hmore k)⟩

theorem visited_trans (h : p.Lawful size Valid Keeps) {s' s'' : σ} {more more' : Nat → Prop}
    (hfirst : p.Visited Valid Keeps s s' more) (hsecond : p.Visited Valid Keeps s' s'' more') :
    p.Visited Valid Keeps s s'' fun k => more k ∨ more' k where
  valid := hsecond.valid
  kept := h.trans hfirst.kept hsecond.kept
  isDone_iff k := by rw [hsecond.isDone_iff, hfirst.isDone_iff, or_assoc]

/-! ### Rounds -/

/-- The rounds for several numbers on top of the stack, if those for each come to an end. -/
private theorem exists_run?_append_eq (h : p.Lawful size Valid Keeps) {numbers : List Nat}
    (hrounds : ∀ j ∈ numbers, ∀ s, Valid s → ∃ n s',
      p.Visited Valid Keeps s s' (Reaches p.below j) ∧
      n + p.toPush size s' ≤ p.toPush size s + 1 ∧
      ∀ more rest, p.run? (n + more) (⟨j, false⟩ :: rest) s = p.run? more rest s')
    (hs : Valid s) :
    ∃ n s', p.Visited Valid Keeps s s' (fun k => ∃ j ∈ numbers, Reaches p.below j k) ∧
      n + p.toPush size s' ≤ p.toPush size s + numbers.length ∧
      ∀ more rest, p.run? (n + more) (numbers.map (⟨·, false⟩) ++ rest) s =
        p.run? more rest s' := by
  induction numbers generalizing s with
  | nil =>
    refine ⟨0, s, h.visited_refl hs (by simp), by simp, fun more rest => ?_⟩
    rw [Nat.zero_add, List.map_nil, List.nil_append]
  | cons j numbers ih =>
    rw [List.forall_mem_cons] at hrounds
    obtain ⟨n, s', hvisited, hle, hrun⟩ := hrounds.1 s hs
    obtain ⟨n', s'', hvisited', hle', hrun'⟩ := ih hrounds.2 hvisited.valid
    refine ⟨n + n', s'', (h.visited_trans hvisited hvisited').congr fun k _ => by simp, ?_,
      fun more rest => ?_⟩
    · rw [List.length_cons]
      omega
    · rw [Nat.add_assoc, List.map_cons, List.cons_append, hrun, hrun']

/-- The rounds for a number come to an end: they lead to the rest of the stack, with the number and
all below it visited. There are no more of them than numbers pushed, and the number itself. -/
theorem exists_run?_cons_eq (h : p.Lawful size Valid Keeps) {i : Nat} (hi : i < size)
    (hs : Valid s) :
    ∃ n s', p.Visited Valid Keeps s s' (Reaches p.below i) ∧
      n + p.toPush size s' ≤ p.toPush size s + 1 ∧
      ∀ more rest, p.run? (n + more) (⟨i, false⟩ :: rest) s = p.run? more rest s' := by
  induction i using Nat.strongRecOn generalizing s with
  | ind i ih =>
    by_cases hdone : p.isDone s i
    · refine ⟨1, s, h.visited_refl hs fun k hk => h.isDone_of_reaches hs hk hdone, by omega,
        fun more rest => ?_⟩
      rw [Nat.add_comm, run?_of_isDone hdone]
    have hbelow : ∀ j ∈ (p.below i).filter fun n => !p.isDone s n, j ∈ p.below i :=
      fun j hj => (List.mem_filter.1 hj).1
    obtain ⟨n, s', hvisited, hle, hrun⟩ := h.exists_run?_append_eq
      (fun j hj s hs => ih j (h.below_lt i j (hbelow j hj))
        (Nat.lt_trans (h.below_lt i j (hbelow j hj)) hi) hs) hs
    -- When the number is met again, all below it is done and the number itself is not.
    have hdone' : ¬p.isDone s' i := by
      rw [hvisited.isDone_iff]
      rintro (hi' | ⟨j, hj, hreach⟩)
      · exact hdone hi'
      · exact Nat.not_le.2 (h.below_lt i j (hbelow j hj)) (hreach.le h.below_lt)
    have hparts : ∀ j ∈ p.below i, p.isDone s' j := fun j hj => by
      rw [hvisited.isDone_iff]
      by_cases hj' : p.isDone s j
      · exact .inl hj'
      · exact .inr ⟨j, List.mem_filter.2 ⟨hj, by simpa using hj'⟩, .refl j⟩
    obtain ⟨s'', hvisit, hvisited'⟩ := h.exists_visit? hvisited.valid hi hdone' hparts
    have hpush := toPush_eq_add hi hdone' hvisited'.isDone_iff
    have hlength : ((p.below i).filter fun n => !p.isDone s n).length ≤ (p.below i).length :=
      List.length_filter_le ..
    refine ⟨n + 2, s'', (h.visited_trans hvisited hvisited').congr fun k hk => ?_, by omega,
      fun more rest => ?_⟩
    · constructor
      · rintro (⟨j, hj, hreach⟩ | rfl)
        · exact .step (hbelow j hj) hreach
        · exact .refl k
      · rintro (_ | ⟨hj, path⟩)
        · exact .inr rfl
        · refine .inl ⟨_, List.mem_filter.2 ⟨hj, ?_⟩, path⟩
          simpa using fun hj' => hk (h.isDone_of_reaches hs path hj')
    · rw [show n + 2 + more = (n + (more + 1)) + 1 by omega, run?_of_not_opened hdone, opened,
        List.append_assoc, List.singleton_append, hrun, run?_of_opened hdone' hvisit]

/-- The visits for one number come to an end and succeed, with the number and all below it
visited. -/
theorem exists_visitFrom?_eq_some (h : p.Lawful size Valid Keeps) {i : Nat} (hi : i < size)
    (hs : Valid s) :
    ∃ s', p.visitFrom? size s i = some s' ∧ p.Visited Valid Keeps s s' (Reaches p.below i) := by
  obtain ⟨n, s', hvisited, hle, hrun⟩ := h.exists_run?_cons_eq hi hs
  refine ⟨s', ?_, hvisited⟩
  obtain ⟨more, hmore⟩ := Nat.exists_eq_add_of_le (show n ≤ p.toPush size s + 1 by omega)
  rw [visitFrom?, hmore, hrun, run?_nil]

end Lawful

/-! ### Visits in place of others -/

section Replaced

variable {p : PostOrder σ} {visit? : σ → Nat → Option σ} {Valid : σ → Prop} {Allowed : Nat → Prop}
  {s s' : σ}

private theorem toPush_with_visit? (p : PostOrder σ) (visit? : σ → Nat → Option σ) (size : Nat)
    (s : σ) :
    { p with visit? := visit? }.toPush size s = p.toPush size s := by
  induction size with
  | zero => rfl
  | succ size ih =>
    rw [toPush, toPush, ih]
    rfl

/-- A run succeeds with other visits too, if these do what was done at the numbers that are met. -/
theorem run?_with_visit? (hbelow : ∀ i, Allowed i → ∀ j ∈ p.below i, Allowed j)
    (hvisit : ∀ s i s', Valid s → Allowed i → p.visit? s i = some s' →
      visit? s i = some s' ∧ Valid s')
    {rounds : Nat} {stack : List Pending} (hstack : ∀ next ∈ stack, Allowed next.number)
    (hs : Valid s) (hrun : p.run? rounds stack s = some s') :
    { p with visit? := visit? }.run? rounds stack s = some s' := by
  fun_induction p.run? rounds stack s with
  | case1 _ s => rw [run?_nil, ← hrun]
  | case2 => cases hrun
  | case3 _ next rest s hdone ih =>
    rw [List.forall_mem_cons] at hstack
    rw [run?, if_pos hdone, ih hstack.2 hs hrun]
  | case4 _ next rest s hdone hopened s'' hvisited ih =>
    rw [List.forall_mem_cons] at hstack
    obtain ⟨hvisit', hs''⟩ := hvisit s next.number s'' hs hstack.1 hvisited
    rw [run?, if_neg hdone, if_pos hopened]
    simp only [hvisit']
    exact ih hstack.2 hs'' hrun
  | case5 => cases hrun
  | case6 _ next rest s hdone hopened ih =>
    rw [List.forall_mem_cons] at hstack
    rw [run?, if_neg hdone, if_neg hopened]
    refine ih (List.forall_mem_append.2 ⟨fun entry hentry => ?_, hstack.2⟩) hs hrun
    rcases List.mem_append.1 hentry with hmem | hmem
    · obtain ⟨j, hj, rfl⟩ := List.mem_map.1 hmem
      exact hbelow _ hstack.1 j (List.mem_filter.1 hj).1
    · rw [List.mem_singleton.1 hmem]
      exact hstack.1

/-- Visits that succeed where others did, at a number and all below it, lead to the same state. -/
theorem visitFrom?_with_visit? {size i : Nat} (hs : Valid s)
    (hvisit : ∀ s j s', Valid s → Reaches p.below i j → p.visit? s j = some s' →
      visit? s j = some s' ∧ Valid s')
    (h : p.visitFrom? size s i = some s') :
    { p with visit? := visit? }.visitFrom? size s i = some s' := by
  rw [visitFrom?, toPush_with_visit?]
  refine run?_with_visit? (fun j hj k hk => hj.trans (.step hk (.refl k))) hvisit ?_ hs h
  simpa using Reaches.refl i

end Replaced

end PostOrder

end ChartParsing
