/-!
# Visits in post-order

Numbered things are visited one after another, each after those that it rests on. The numbers yet to
be visited stand on a stack. A number that is met for the first time is put back as opened, under
the numbers that it rests on; when it is met again they have been visited, and it is visited itself.
A number may stand on the stack several times, and it may have been visited in an earlier round: it
is passed over once it is done.

## Main definitions

* `PostOrder`: what the numbers rest on, and what a visit does.
* `PostOrder.Pending`, `PostOrder.opened`: the entries of the stack.
* `PostOrder.run?`: visit the numbers on a stack, an entry a round.
* `PostOrder.visitFrom?`: visit a number and all below it.
-/

namespace ChartParsing

universe u

/-- Visits to numbered things, with their results in a state. -/
structure PostOrder (σ : Type u) where
  /-- The numbers that a number rests on, the first to be visited in front. -/
  below : Nat → List Nat
  /-- Whether a number has been visited. -/
  isDone : σ → Nat → Bool
  /-- Visit a number. There is no result if it cannot be visited yet, or not again. -/
  visit? : σ → Nat → Option σ

namespace PostOrder

/-- A number on the stack. -/
structure Pending where
  /-- The number. -/
  number : Nat
  /-- Whether the numbers that it rests on have been put onto the stack. -/
  opened : Bool
deriving DecidableEq

variable {σ : Type u}

/-- What takes the place of a number when it is met for the first time: the numbers that it rests on
and that are not done, and under them the number itself. -/
def opened (p : PostOrder σ) (s : σ) (number : Nat) : List Pending :=
  ((p.below number).filter fun n => !p.isDone s n).map (⟨·, false⟩) ++ [⟨number, true⟩]

/-- Visit the numbers on a stack, taking one entry from it in each round. There is no result if a
visit has none, nor if the rounds do not suffice. -/
def run? (p : PostOrder σ) : Nat → List Pending → σ → Option σ
  | _, [], s => some s
  | 0, _ :: _, _ => none
  | rounds + 1, next :: rest, s =>
    if p.isDone s next.number then p.run? rounds rest s
    else if next.opened then
      match p.visit? s next.number with
      | some s' => p.run? rounds rest s'
      | none => none
    else p.run? rounds (p.opened s next.number ++ rest) s

/-- How many entries a number may put onto the stack: the numbers that it rests on and itself, once,
and none if it is done. -/
def pushes (p : PostOrder σ) (s : σ) (number : Nat) : Nat :=
  if p.isDone s number then 0 else (p.below number).length + 1

/-- How many entries the numbers below `size` may put onto the stack. -/
def toPush (p : PostOrder σ) : Nat → σ → Nat
  | 0, _ => 0
  | size + 1, s => p.toPush size s + p.pushes s size

/-- Visit a number below `size` and all below it. The stack holds the number at first, and the
rounds are as many as there can be entries. -/
def visitFrom? (p : PostOrder σ) (size : Nat) (s : σ) (number : Nat) : Option σ :=
  p.run? (p.toPush size s + 1) [⟨number, false⟩] s

/-! ### Single rounds -/

variable {p : PostOrder σ} {s : σ} {number rounds : Nat} {rest : List Pending}

theorem run?_nil (p : PostOrder σ) (rounds : Nat) (s : σ) : p.run? rounds [] s = some s := by
  rw [run?]

theorem run?_of_isDone (h : p.isDone s number) (opened : Bool) :
    p.run? (rounds + 1) (⟨number, opened⟩ :: rest) s = p.run? rounds rest s := by
  rw [run?, if_pos h]

theorem run?_of_not_opened (h : ¬p.isDone s number) :
    p.run? (rounds + 1) (⟨number, false⟩ :: rest) s =
      p.run? rounds (p.opened s number ++ rest) s := by
  rw [run?, if_neg h]
  rfl

theorem run?_of_opened {s' : σ} (h : ¬p.isDone s number) (hvisit : p.visit? s number = some s') :
    p.run? (rounds + 1) (⟨number, true⟩ :: rest) s = p.run? rounds rest s' := by
  rw [run?, if_neg h, hvisit]
  rfl

end PostOrder

end ChartParsing
