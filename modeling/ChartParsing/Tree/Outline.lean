import ChartParsing.Tree.Basic

/-!
# Trees as indented outlines

An outline has one row for each leaf and node of a tree, in preorder. In front of the key stands one
group of three characters for each level above it: a bar where the branch of that level goes on
further down, blanks where it has come to its end.

## Main definitions

* `OutlineRow`: a key with what its levels show.
* `Tree.outlineRows`, `Tree.outline`: the rows and the text of a tree's outline.
-/

namespace ChartParsing

universe u

/-- A row of an outline. -/
structure OutlineRow (K : Type u) where
  /-- For each level below the root, whether the branch on that level is a last child. -/
  isLast : List Bool
  /-- The key of the row. -/
  key : K
deriving DecidableEq

variable {K : Type u}

/-- The three characters that stand for a level. -/
def levelText (isLast : Bool) : String :=
  if isLast then "   " else "  |"

/-- A row as a line. -/
def OutlineRow.text [Literal K] (row : OutlineRow K) : String :=
  String.join (row.isLast.map levelText) ++ "`-- " ++ literal row.key ++ "\n"

namespace Tree

mutual

/-- The rows of a tree whose root has the given levels. -/
def rowsBelow (levels : List Bool) : Tree K → List (OutlineRow K)
  | .leaf key => [⟨levels, key⟩]
  | .node key children => ⟨levels, key⟩ :: rowsOfList levels children

/-- The rows of a list of subtrees of a node that has the given levels. -/
def rowsOfList (levels : List Bool) : List (Tree K) → List (OutlineRow K)
  | [] => []
  | t :: ts => rowsBelow (levels ++ [ts.isEmpty]) t ++ rowsOfList levels ts

end

/-- The rows of a tree's outline, in preorder. -/
def outlineRows (t : Tree K) : List (OutlineRow K) := rowsBelow [] t

/-- The outline of a tree. -/
def outline [Literal K] (t : Tree K) : String :=
  String.join (t.outlineRows.map OutlineRow.text)

end Tree

end ChartParsing
