import ChartParsing.Choices
import ChartParsing.Tree.Basic

/-!
# Forests

A forest stands for many derivation trees at once. It has a label and a list of alternatives, each
a list of children that are forests themselves; a tree is had by choosing one alternative
everywhere. Here a forest is a plain value; the form in which equal parts are shared is
`ForestGraph`.

## Main definitions

* `Forest`: labels with alternatives.
* `Forest.fold`: recursion from the children up.
* `Forest.trees`: the trees that a forest stands for, in order.

## Main results

* `Forest.fold_node`: the equation of `Forest.fold`.
-/

namespace ChartParsing

universe u v

/-- A label with alternative lists of children. -/
inductive Forest (K : Type u) where
  /-- A forest of a label and its alternatives. -/
  | node (label : K) (alternatives : List (List (Forest K)))

namespace Forest

variable {K : Type u} {β : Type v}

/-- The label of a forest. -/
def label : Forest K → K
  | .node label _ => label

/-- The alternatives of a forest. -/
def alternatives : Forest K → List (List (Forest K))
  | .node _ alternatives => alternatives

/-- A forest is a leaf when none of its alternatives has children. -/
def isLeaf (f : Forest K) : Bool := f.alternatives.all List.isEmpty

/-- A forest is ambiguous when it has more than one alternative. -/
def isAmbiguous (f : Forest K) : Bool := 1 < f.alternatives.length

/-! ### Recursion -/

mutual

/-- The value of a forest, computed from its label and the values of its children. -/
def fold (value : K → List (List β) → β) : Forest K → β
  | .node label alternatives => value label (foldAlternatives value alternatives)

/-- The values of the children in each alternative. -/
def foldAlternatives (value : K → List (List β) → β) : List (List (Forest K)) → List (List β)
  | [] => []
  | children :: rest => foldChildren value children :: foldAlternatives value rest

/-- The values of a list of children. -/
def foldChildren (value : K → List (List β) → β) : List (Forest K) → List β
  | [] => []
  | child :: rest => fold value child :: foldChildren value rest

end

private theorem foldChildren_eq (value : K → List (List β) → β) (children : List (Forest K)) :
    foldChildren value children = children.map (fold value) := by
  induction children with
  | nil => rfl
  | cons child rest ih => rw [foldChildren, ih, List.map_cons]

private theorem foldAlternatives_eq (value : K → List (List β) → β)
    (alternatives : List (List (Forest K))) :
    foldAlternatives value alternatives = alternatives.map (List.map (fold value)) := by
  induction alternatives with
  | nil => rfl
  | cons children rest ih => rw [foldAlternatives, ih, foldChildren_eq, List.map_cons]

theorem fold_node (value : K → List (List β) → β) (label : K)
    (alternatives : List (List (Forest K))) :
    fold value (.node label alternatives) =
      value label (alternatives.map (List.map (fold value))) := by
  rw [fold, foldAlternatives_eq]

/-! ### Trees -/

/-- The trees of a forest with the given label, when each child stands for the given trees. If no
alternative has children, there is one tree, a leaf. Otherwise an alternative gives one node for
each choice of a tree for every child. -/
def expand (label : K) (alternatives : List (List (List (Tree K)))) : List (Tree K) :=
  if alternatives.all List.isEmpty then [.leaf label]
  else alternatives.flatMap fun children => (combinations children).map (.node label)

/-- The trees that a forest stands for: alternative by alternative, and within one the choices for
the first child varying slowest. -/
def trees (f : Forest K) : List (Tree K) := f.fold expand

end Forest

end ChartParsing
