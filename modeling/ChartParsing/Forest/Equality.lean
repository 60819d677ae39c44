import ChartParsing.Forest.Shared

/-!
# Equal forests in a shared table

Two nodes stand for equal forests exactly when they have the same label and, alternative by
alternative, children that stand for equal forests. So one pass over the table finds, for each
node, the first node that stands for the same forest, and no forest is ever unfolded.

## Main definitions

* `ForestGraph.firstEquals`: for each node the first one that stands for the same forest.
* `SharedForests.equalityMatrix`: which roots stand for equal forests.
-/

namespace ChartParsing

universe u

variable {K : Type u} [DecidableEq K]

/-- Nodes in a form that shows their equality, and for each node the first one equal to it. -/
structure FirstEquals (K : Type u) where
  /-- The nodes, where each child is named by the first node equal to it. -/
  forms : Array (ForestNode K)
  /-- The first equal node of each node. -/
  first : Array Nat

/-- Add one node: nodes are equal when their forms are the same. -/
def FirstEquals.push (e : FirstEquals K) (n : ForestNode K) : FirstEquals K :=
  let form := n.renumber (e.first[·]?)
  let forms := e.forms.push form
  { forms := forms, first := e.first.push (forms.idxOf form) }

/-- For each node the first one that stands for the same forest. -/
def ForestGraph.firstEquals (g : ForestGraph K) : Array Nat :=
  (g.nodes.foldl FirstEquals.push ⟨#[], #[]⟩).first

/-- For each root, which of the roots stand for the same forest. -/
def SharedForests.equalityMatrix (fs : SharedForests K) : List (List Bool) :=
  let firsts := fs.atRoots fs.graph.firstEquals
  firsts.map fun a => firsts.map fun b => a == b

end ChartParsing
