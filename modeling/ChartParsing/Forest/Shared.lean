import ChartParsing.Forest.Table

/-!
# Several forests in one table

## Main definitions

* `SharedForests`: a table of nodes with some of them as roots.
* `SharedForests.ofRoots`: choose the roots in a table.
* `SharedForests.toForests`, `SharedForests.trees`: what the roots stand for.
-/

namespace ChartParsing

universe u v

/-- A table of nodes with some of them, possibly repeated, as roots. -/
structure SharedForests (K : Type u) where
  /-- The nodes. -/
  graph : ForestGraph K
  /-- The numbers of the roots. -/
  roots : List Nat
  /-- The roots are nodes of the table. -/
  roots_lt : ∀ r ∈ roots, r < graph.size

namespace SharedForests

variable {K : Type u} {β : Type v}

/-- A table with those of the given numbers as roots that are nodes. -/
def ofRoots (graph : ForestGraph K) (roots : List Nat) : SharedForests K where
  graph := graph
  roots := roots.filter (· < graph.size)
  roots_lt r h := by simpa using (List.mem_filter.1 h).2

/-- The values of the roots in a table of values for all nodes. -/
def atRoots (fs : SharedForests K) (table : Array β) : List β :=
  fs.roots.filterMap (table[·]?)

/-- The forests that the roots stand for. -/
def toForests (fs : SharedForests K) : List (Forest K) :=
  fs.atRoots fs.graph.unfoldings

/-- For each root, the trees that it stands for. -/
def trees (fs : SharedForests K) : List (List (Tree K)) :=
  fs.toForests.map Forest.trees

end SharedForests

end ChartParsing
