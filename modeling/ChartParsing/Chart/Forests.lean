import ChartParsing.Chart.Basic
import ChartParsing.Forest.Shared
import ChartParsing.PostOrder

/-!
# Forests of chart items

The forest of an item has the item's key as its label and one alternative with two children for each
joint; an item without joints has a leaf. Forests are built on demand, each at most once: a later
demand uses what earlier ones have built. A demand visits the item and the items below it in
post-order, so the forests of its parts are there when the forest of an item is built.

## Main definitions

* `BuiltForests`: the forests built so far, and the items that they belong to.
* `Chart.build?`: build the forest of one item, whose parts have theirs.
* `Chart.builder`: the visits that build forests.
* `Chart.demand?`, `Chart.demandEach`: build the forests of demanded items with all below them.
-/

namespace ChartParsing

universe u

variable {K : Type u}

/-- The forests of some items of a chart. -/
structure BuiltForests (K : Type u) where
  /-- The forests. -/
  graph : ForestGraph K
  /-- For each item the node of its forest, if it has been built. -/
  nodeOf : Array (Option Nat)

namespace BuiltForests

/-- No forests yet for a number of items. -/
def empty (items : Nat) : BuiltForests K := ⟨.empty, Array.replicate items none⟩

/-- The node of an item's forest. -/
def node? (b : BuiltForests K) (number : Nat) : Option Nat := b.nodeOf[number]?.join

/-- The items whose forests have been built, in the order of their numbers. -/
def numbers (b : BuiltForests K) : List Nat :=
  (List.range b.nodeOf.size).filter fun number => (b.node? number).isSome

/-- Add the forest of an item. -/
def add (b : BuiltForests K) (number : Nat) (n : ForestNode K) : BuiltForests K where
  graph := b.graph.push n
  nodeOf := b.nodeOf.setIfInBounds number (some b.graph.size)

/-- Add the forest of an item that has none yet. -/
def add? (b : BuiltForests K) (number : Nat) (n : ForestNode K) : Option (BuiltForests K) :=
  if (b.node? number).isSome then none else some (b.add number n)

/-- The children for a joint, if both parts have been built. -/
def childrenFor? (b : BuiltForests K) (joint : Joint) : Option (List Nat) := do
  let left ← b.node? joint.left
  let right ← b.node? joint.right
  pure [left, right]

/-- The node for an item, if all its parts have been built. -/
def nodeFor? (b : BuiltForests K) (item : Item K) : Option (ForestNode K) :=
  if item.isTerminal then some ⟨item.key, [[]]⟩
  else (item.joints.mapM b.childrenFor?).map fun alternatives => ⟨item.key, alternatives⟩

end BuiltForests

namespace Chart

/-- Build the forest of one item. There is no result if there is no such item, if one of its parts
has not been built, or if the item itself has been built before. -/
def build? (c : Chart K) (b : BuiltForests K) (number : Nat) : Option (BuiltForests K) := do
  let item ← c.item? number
  let n ← b.nodeFor? item
  b.add? number n

/-- The visits that build the forests of items: an item rests on its parts. -/
def builder (c : Chart K) : PostOrder (BuiltForests K) where
  below := c.parts
  isDone b number := (b.node? number).isSome
  visit? := c.build?

/-- The forest of an item, with the forests of all items below it. -/
def demand? (c : Chart K) (b : BuiltForests K) (number : Nat) :
    Option (BuiltForests K × Nat) :=
  (c.builder.visitFrom? c.items.size b number).bind fun built =>
    (built.node? number).map fun root => (built, root)

/-- The forests of items one after another, with the nodes that they became. Numbers that are not
those of items are passed over. -/
def demandEach (c : Chart K) (b : BuiltForests K) (numbers : List Nat) :
    BuiltForests K × List Nat :=
  numbers.foldl
    (fun (built, roots) number =>
      match c.demand? built number with
      | some (more, root) => (more, roots ++ [root])
      | none => (built, roots))
    (b, [])

/-- The forests of items, where none has been built before. -/
def forestsOf (c : Chart K) (numbers : List Nat) : SharedForests K :=
  let (built, roots) := c.demandEach (.empty c.items.size) numbers
  .ofRoots built.graph roots

end Chart

end ChartParsing
