import ChartParsing.Count
import ChartParsing.Forest.Shared
import ChartParsing.PostOrder

/-!
# How many trees a forest stands for, and how large they are

The census of a forest bounds the number of nodes and the height of its trees from below and from
above and counts the ways to choose a tree. It is computed from the censuses of the children, so the
trees are never enumerated. In a table the nodes are visited in post-order, and a census that has
been taken is used again wherever the node is shared.

## Main definitions

* `Census`: the five figures.
* `Census.or`, `Census.beside`, `Census.under`: one or the other; side by side; under a new node.
* `Census.ofAlternatives`: the census of a forest from those of its children.
* `TakenCensuses`: the censuses taken so far.
* `ForestGraph.takeCensus?`, `ForestGraph.censusTaker`: the visits that take censuses.
* `ForestGraph.census?`, `SharedForests.censuses`, `SharedForests.census?`: of a node, of each root,
  of all roots together.
* `Forest.census`: by recursion on the forest.
-/

namespace ChartParsing

universe u

/-- Bounds over the trees of a forest, and their number. Nodes are counted without the leaves. -/
structure Census where
  /-- The fewest nodes, or the largest count if there are more. -/
  minNodes : Nat
  /-- The most nodes, or the largest count if there are more. -/
  maxNodes : Nat
  /-- The smallest height. -/
  minDepth : Nat
  /-- The largest height. -/
  maxDepth : Nat
  /-- The number of trees, if it is a count. -/
  ways : Option Nat
deriving DecidableEq

namespace Census

/-- The census of a single leaf. -/
def leaf : Census := ⟨0, 0, 0, 0, some 1⟩

/-- The census of a choice between two forests. -/
def or (a b : Census) : Census where
  minNodes := min a.minNodes b.minNodes
  maxNodes := max a.maxNodes b.maxNodes
  minDepth := min a.minDepth b.minDepth
  maxDepth := max a.maxDepth b.maxDepth
  ways := checkedAdd? a.ways b.ways

/-- The census of two forests side by side. -/
def beside (a b : Census) : Census where
  minNodes := saturatingAdd a.minNodes b.minNodes
  maxNodes := saturatingAdd a.maxNodes b.maxNodes
  minDepth := max a.minDepth b.minDepth
  maxDepth := max a.maxDepth b.maxDepth
  ways := checkedMul? a.ways b.ways

/-- The census of what lies below, put under one node. -/
def under (a : Census) : Census where
  minNodes := saturatingAdd a.minNodes 1
  maxNodes := saturatingAdd a.maxNodes 1
  minDepth := a.minDepth + 1
  maxDepth := a.maxDepth + 1
  ways := a.ways

/-- The census of a choice between any number of forests, `none` if there are none. -/
def choice? : List Census → Option Census
  | [] => none
  | a :: rest => some (rest.foldl or a)

/-- The census of an alternative with the given children: a leaf if it has none. -/
def ofChildren : List Census → Census
  | [] => leaf
  | a :: rest => (rest.foldl beside a).under

/-- The census of a forest whose children have the given censuses: a leaf if it has no
alternatives. -/
def ofAlternatives (alternatives : List (List Census)) : Census :=
  (choice? (alternatives.map ofChildren)).getD leaf

end Census

variable {K : Type u}

/-- The census of a forest. -/
def Forest.census (f : Forest K) : Census :=
  f.fold fun _ => Census.ofAlternatives

/-- The censuses of some nodes of a table. -/
structure TakenCensuses where
  /-- For each node its census, if it has been taken. -/
  censusOf : Array (Option Census)

namespace TakenCensuses

/-- No censuses yet of a number of nodes. -/
def empty (nodes : Nat) : TakenCensuses := ⟨Array.replicate nodes none⟩

/-- The census of a node. -/
def census? (taken : TakenCensuses) (number : Nat) : Option Census := taken.censusOf[number]?.join

/-- Add the census of a node. -/
def add (taken : TakenCensuses) (number : Nat) (census : Census) : TakenCensuses :=
  ⟨taken.censusOf.setIfInBounds number (some census)⟩

end TakenCensuses

namespace ForestGraph

/-- Take the census of one node. There is no result if there is no such node, or if the census of
one of its children has not been taken. -/
def takeCensus? (g : ForestGraph K) (taken : TakenCensuses) (number : Nat) :
    Option TakenCensuses :=
  g.nodes[number]?.bind fun n =>
    (n.alternatives.mapM (List.mapM taken.census?)).map fun alternatives =>
      taken.add number (.ofAlternatives alternatives)

/-- The visits that take the censuses of nodes: a node rests on its children, of which the last one
is visited first. -/
def censusTaker (g : ForestGraph K) : PostOrder TakenCensuses where
  below number := (g.children number).reverse
  isDone taken number := (taken.census? number).isSome
  visit? := g.takeCensus?

/-- The census of a node, with the censuses of all nodes below it. -/
def demandCensus? (g : ForestGraph K) (taken : TakenCensuses) (number : Nat) :
    Option (TakenCensuses × Census) :=
  (g.censusTaker.visitFrom? g.size taken number).bind fun taken =>
    (taken.census? number).map fun census => (taken, census)

/-- The census of a node, where none has been taken before. -/
def census? (g : ForestGraph K) (number : Nat) : Option Census :=
  (g.demandCensus? (.empty g.size) number).map Prod.snd

/-- The censuses of nodes one after another, each with the use of those that have been taken. -/
def demandCensuses? (g : ForestGraph K) (taken : TakenCensuses) (numbers : List Nat) :
    Option (TakenCensuses × List Census) :=
  numbers.foldlM
    (fun (taken, censuses) number =>
      (g.demandCensus? taken number).map fun (taken, census) => (taken, censuses ++ [census]))
    (taken, [])

end ForestGraph

namespace SharedForests

/-- The census of each root, taken on its own. -/
def censuses (fs : SharedForests K) : List Census :=
  fs.roots.filterMap fs.graph.census?

/-- The census of all roots together, `none` if there are no roots. A part that roots share is
counted once. -/
def census? (fs : SharedForests K) : Option Census :=
  (fs.graph.demandCensuses? (.empty fs.graph.size) fs.roots).bind fun (_, censuses) =>
    Census.choice? censuses

end SharedForests

end ChartParsing
