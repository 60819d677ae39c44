import ChartParsing.Forest.Shared

/-!
# Listing the nodes below the roots

A listing shows which nodes are reached from the roots, and how they share parts, independently of
how the table was built. The reached nodes are numbered anew in the order of a first visit: the
roots in order, each before what lies below it, the children of a node in order.

## Main definitions

* `Visits`: the nodes visited so far with their new numbers.
* `ForestGraph.visit`: visit a node and what lies below it.
* `Listing`, `SharedForests.listing`: the reached nodes, renumbered.
-/

namespace ChartParsing

universe u

variable {K : Type u}

/-- The nodes visited so far. -/
structure Visits where
  /-- The nodes in the order of their first visits. -/
  order : Array Nat
  /-- The place of each node in that order, if it has been visited. -/
  places : Array (Option Nat)

namespace Visits

/-- No visits yet to the nodes of a table of the given size. -/
def empty (size : Nat) : Visits := ⟨#[], Array.replicate size none⟩

/-- The place of a node among the visited ones. -/
def place? (v : Visits) (i : Nat) : Option Nat := v.places[i]?.join

/-- The visits with one more node. -/
def add (v : Visits) (i : Nat) : Visits where
  order := v.order.push i
  places := v.places.setIfInBounds i (some v.order.size)

end Visits

namespace ForestGraph

/-- Visit a node and then, in order, what lies below it, unless it has been visited. The bound
limits the number of levels; children have smaller numbers than their parent, so a bound above the
node's number is never met. -/
def visit (g : ForestGraph K) : Nat → Visits → Nat → Visits
  | 0, v, _ => v
  | bound + 1, v, i =>
    if (v.place? i).isSome then v else (g.children i).foldl (visit g bound) (v.add i)

/-- The visits to the nodes below the given roots. -/
def visits (g : ForestGraph K) (roots : List Nat) : Visits :=
  roots.foldl (g.visit g.size) (.empty g.size)

end ForestGraph

/-- The nodes below some roots, numbered by the order of their first visits. -/
structure Listing (K : Type u) where
  /-- The numbers of the roots. -/
  roots : List Nat
  /-- The nodes by number. -/
  nodes : List (ForestNode K)
deriving DecidableEq

/-- The nodes below the roots. -/
def SharedForests.listing (fs : SharedForests K) : Listing K :=
  let visits := fs.graph.visits fs.roots
  { roots := fs.roots.filterMap visits.place?
    nodes := visits.order.toList.filterMap fun i =>
      fs.graph.nodes[i]?.map fun n => n.renumber visits.place? }

end ChartParsing
