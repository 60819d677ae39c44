import ChartParsing.Choices
import ChartParsing.Forest.Shared
import ChartParsing.Splice.Table

/-!
# Splicing temporary rules out of forests

A child with a temporary key gives way to its own children. Where it has several alternatives, the
alternative that it is a child of is repeated for each of them; with several such children, for each
choice. Leaves become the values that they stand for, also where their keys are temporary.

Forests are spliced by recursion from the roots, which ends with the first error that is met. What
has been found for a forest that is kept, or for an alternative, is remembered, so shared parts stay
shared: each forest that is kept becomes one node, and there is one leaf for each terminal key.

## Main definitions

* `Splicing`: the spliced forests so far, and what is remembered.
* `Splicing.keep`: the node that a kept forest becomes.
* `Splicing.replaceAlternative`, `Splicing.replaceChild`: the lists of nodes, one of which takes the
  place of an alternative or of a child.
* `Splicing.spliceRoot`: the node that a root becomes.
* `SharedForests.splice`: the spliced forests.
-/

namespace ChartParsing

universe u v w

/-- The spliced forests so far, with what is remembered of the forests that they come from. -/
structure Splicing (K : Type u) (V : Type v) where
  /-- The spliced forests. -/
  graph : ForestGraph (Symbol K V)
  /-- Kept forests that have been spliced, each with the node that it has become. -/
  kept : List (Nat × Nat)
  /-- Alternatives that have been spliced, by node and place, each with the lists of nodes, one of
  which takes its place. -/
  replaced : List ((Nat × Nat) × List (List Nat))

namespace Splicing

/-- What a step of splicing leads to: the spliced forests with a result, or the first error. -/
abbrev Outcome (K : Type u) (V : Type v) (α : Type) :=
  Except (SpliceError K) (Splicing K V × α)

variable {K : Type u} {V : Type v}

/-- The leaves, one for each terminal key. -/
def start (t : SpliceTable K V) : Splicing K V where
  graph := .ofNodes (t.outputs.map fun entry => ⟨.value entry.2, [[]]⟩)
  kept := []
  replaced := []

/-- Add a node to the spliced forests. -/
def push (s : Splicing K V) (n : ForestNode (Symbol K V)) : Splicing K V × Nat :=
  ({ s with graph := s.graph.push n }, s.graph.size)

/-- Remember the node that a forest has become. -/
def rememberKept (s : Splicing K V) (i m : Nat) : Splicing K V :=
  { s with kept := (i, m) :: s.kept }

/-- Remember the lists of nodes that take the place of an alternative. -/
def rememberReplaced (s : Splicing K V) (place : Nat × Nat) (lists : List (List Nat)) :
    Splicing K V :=
  { s with replaced := (place, lists) :: s.replaced }

/-- Take one step for each item, and join what the steps find. -/
def forEach {α : Type w} {β γ : Type} (step : Splicing K V → α → Outcome K V β)
    (join : γ → β → γ) (found : γ) (s : Splicing K V) (items : List α) : Outcome K V γ :=
  items.foldlM (m := Except (SpliceError K))
    (fun (s, found) item => (step s item).map fun (s, more) => (s, join found more)) (s, found)

/-- The lists that take the place of an alternative, where `child` finds those for a child: one for
each choice of a list for every child. They are found once. -/
def replaceAlternative (child : Splicing K V → Nat → Outcome K V (List (List Nat)))
    (s : Splicing K V) (place : Nat × Nat) (children : List Nat) : Outcome K V (List (List Nat)) :=
  match s.replaced.lookup place with
  | some lists => .ok (s, lists)
  | none =>
    (forEach child appendEach [[]] s children).map fun (s, lists) =>
      (s.rememberReplaced place lists, lists)

/-- The lists that take the place of all alternatives of a node, one alternative after another. -/
def replaceAlternatives (child : Splicing K V → Nat → Outcome K V (List (List Nat)))
    (s : Splicing K V) (i : Nat) (n : ForestNode K) : Outcome K V (List (List Nat)) :=
  forEach (fun s (children, place) => replaceAlternative child s (i, place) children)
    (· ++ ·) [] s n.alternatives.zipIdx

variable [DecidableEq K]

/-- The node of the leaf for a terminal key: the leaves come first, in the order of the outputs. -/
def leafNode? (t : SpliceTable K V) (key : K) : Option Nat :=
  t.outputs.findIdx? fun entry => entry.1 = key

/-- The node that a leaf becomes. -/
def leaf (t : SpliceTable K V) (s : Splicing K V) (key : K) : Outcome K V Nat :=
  match leafNode? t key with
  | some m => .ok (s, m)
  | none => .error (.valuelessLeaf key)

/-- The node that the forest of a node becomes if it is kept, where `child` finds the lists that
take the place of a child. It is made once. -/
def keep (t : SpliceTable K V) (child : Splicing K V → Nat → Outcome K V (List (List Nat)))
    (s : Splicing K V) (i : Nat) (n : ForestNode K) : Outcome K V Nat :=
  match s.kept.lookup i with
  | some m => .ok (s, m)
  | none =>
    (if n.isLeaf then leaf t s n.label
      else (replaceAlternatives child s i n).map
        fun (s, lists) => s.push ⟨.rule n.label, lists⟩).map
      fun (s, m) => (s.rememberKept i m, m)

/-- The lists that take the place of a child below which nodes are nested at most `depth` deep. A
leaf is looked up among the outputs before the flag of its key is. -/
def replaceChild (t : SpliceTable K V) (g : ForestGraph K) :
    (depth : Nat) → Splicing K V → Nat → Outcome K V (List (List Nat))
  | 0, s, _ => .ok (s, [])
  | depth + 1, s, c =>
    match g.nodes[c]? with
    | none => .ok (s, [])
    | some n =>
      if n.isLeaf then (leaf t s n.label).map fun (s, m) => (s, [[m]])
      else
        match t.flag? n.label with
        | none => .error (.undefinedKey n.label)
        | some true => replaceAlternatives (replaceChild t g depth) s c n
        | some false => (keep t (replaceChild t g depth) s c n).map fun (s, m) => (s, [[m]])

/-- The node that a root becomes. What is below it has smaller numbers. -/
def spliceRoot (t : SpliceTable K V) (g : ForestGraph K) (s : Splicing K V) (r : Nat) :
    Outcome K V (List Nat) :=
  match g.nodes[r]? with
  | none => .ok (s, [])
  | some n =>
    match t.flag? n.label with
    | none => .error (.undefinedKey n.label)
    | some true => .error (.temporaryRoot n.label)
    | some false => (keep t (replaceChild t g r) s r n).map fun (s, m) => (s, [m])

end Splicing

namespace SharedForests

variable {K : Type u} {V : Type v} [DecidableEq K] [DecidableEq V]

/-- The forests with temporary rules spliced out and leaves replaced by their values, according to a
table. -/
def spliceBy (t : SpliceTable K V) (fs : SharedForests K) :
    Except (SpliceError K) (SharedForests (Symbol K V)) :=
  (Splicing.forEach (Splicing.spliceRoot t fs.graph) (· ++ ·) [] (.start t) fs.roots).map
    fun (s, roots) => .ofRoots s.graph roots

/-- The spliced forests. What is wrong with the grammar is reported first. -/
def splice (fs : SharedForests K) (g : Grammar K V) :
    Except (SpliceError K) (SharedForests (Symbol K V)) :=
  match SpliceTable.ofGrammar g with
  | .error e => .error e
  | .ok t => fs.spliceBy t

end SharedForests

end ChartParsing
