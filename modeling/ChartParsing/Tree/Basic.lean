import ChartParsing.Text.Literal

/-!
# Derivation trees

A tree is a leaf with a key, or a node with a key and any number of subtrees.

## Main definitions

* `Tree`: the trees, with decidable equality.
* `Tree.frontier`: the keys of the leaves, by recursion on the tree.
* `Tree.Reading`, `Tree.leaves`: the same, with a stack of pending trees.
* `Tree.depth`, `Tree.nodeCount`: the height, and the number of nodes that are no leaves.
* `Tree.text`: a tree on one line.

## Main results

* `Tree.Reading.sizeOfList_pending_step`: a round leaves one node or leaf less to be read.
-/

namespace ChartParsing

universe u

/-- A leaf, or a node over a list of subtrees. -/
inductive Tree (K : Type u) where
  /-- A tree without subtrees. -/
  | leaf (key : K)
  /-- A tree over subtrees, of which there may be none. -/
  | node (key : K) (children : List (Tree K))

namespace Tree

variable {K : Type u}

/-! ### Equality -/

mutual

/-- Decide whether two trees are equal. -/
def decEq [DecidableEq K] : (s t : Tree K) → Decidable (s = t)
  | .leaf a, .leaf b =>
    if h : a = b then isTrue (h ▸ rfl) else isFalse fun e => h (by injection e)
  | .leaf _, .node _ _ => isFalse nofun
  | .node _ _, .leaf _ => isFalse nofun
  | .node a cs, .node b ds =>
    if h : a = b then
      match decEqList cs ds with
      | isTrue h' => isTrue (h ▸ h' ▸ rfl)
      | isFalse h' => isFalse fun e => h' (by injection e)
    else isFalse fun e => h (by injection e)

/-- Decide whether two lists of trees are equal. -/
def decEqList [DecidableEq K] : (ss ts : List (Tree K)) → Decidable (ss = ts)
  | [], [] => isTrue rfl
  | [], _ :: _ => isFalse nofun
  | _ :: _, [] => isFalse nofun
  | s :: ss, t :: ts =>
    match decEq s t with
    | isTrue h =>
      match decEqList ss ts with
      | isTrue h' => isTrue (h ▸ h' ▸ rfl)
      | isFalse h' => isFalse fun e => h' (by injection e)
    | isFalse h => isFalse fun e => h (by injection e)

end

instance [DecidableEq K] : DecidableEq (Tree K) := decEq

/-! ### Parts -/

/-- The key at the root. -/
def key : Tree K → K
  | .leaf key => key
  | .node key _ => key

/-- The subtrees of the root. -/
def children : Tree K → List (Tree K)
  | .leaf _ => []
  | .node _ children => children

/-! ### Measures -/

mutual

/-- The number of leaves and nodes. -/
def size : Tree K → Nat
  | .leaf _ => 1
  | .node _ children => sizeOfList children + 1

/-- The number of leaves and nodes of a list of trees. -/
def sizeOfList : List (Tree K) → Nat
  | [] => 0
  | t :: ts => size t + sizeOfList ts

end

mutual

/-- The number of nodes, leaves not counted. -/
def nodeCount : Tree K → Nat
  | .leaf _ => 0
  | .node _ children => nodeCountOfList children + 1

/-- The number of nodes of a list of trees. -/
def nodeCountOfList : List (Tree K) → Nat
  | [] => 0
  | t :: ts => nodeCount t + nodeCountOfList ts

end

mutual

/-- The height: 0 for a leaf, and one more than the highest subtree for a node. -/
def depth : Tree K → Nat
  | .leaf _ => 0
  | .node _ children => depthOfList children + 1

/-- The largest height in a list of trees, 0 if there are none. -/
def depthOfList : List (Tree K) → Nat
  | [] => 0
  | t :: ts => max (depth t) (depthOfList ts)

end

theorem sizeOfList_append (ss ts : List (Tree K)) :
    sizeOfList (ss ++ ts) = sizeOfList ss + sizeOfList ts := by
  induction ss with
  | nil => simp [sizeOfList]
  | cons s ss ih => simp [sizeOfList, ih, Nat.add_assoc]

theorem size_pos (t : Tree K) : 0 < t.size := by
  cases t <;> simp [size]

/-! ### Leaves -/

mutual

/-- The keys of the leaves from left to right, by recursion on the tree. -/
def frontier : Tree K → List K
  | .leaf key => [key]
  | .node _ children => frontierOfList children

/-- The keys of the leaves of a list of trees, by recursion on the trees. -/
def frontierOfList : List (Tree K) → List K
  | [] => []
  | t :: ts => frontier t ++ frontierOfList ts

end

/-! ### Reading leaves with a stack

The trees still to be read stand on a stack. The one on top is taken off: a leaf is read, and a node
gives way to its subtrees. These are put onto the stack from the last one on, so the first one is
read next, before everything that was pending. -/

/-- A reading of leaves under way. -/
structure Reading (K : Type u) where
  /-- The trees still to be read, the next one on top. -/
  pending : List (Tree K)
  /-- The keys of the leaves read so far. -/
  leaves : List K

namespace Reading

/-- The trees with more of them put on top, one after another. -/
def pushEach (pending ts : List (Tree K)) : List (Tree K) :=
  ts.foldl (fun pending t => t :: pending) pending

/-- What is pending after a node is taken off begins with the subtrees of the node. -/
theorem pushEach_reverse (pending children : List (Tree K)) :
    pushEach pending children.reverse = children ++ pending := by
  simp [pushEach]

/-- The reading of trees before the first round. -/
def start (ts : List (Tree K)) : Reading K := ⟨ts, []⟩

/-- One round of reading. Nothing changes once no tree is pending. -/
def step (r : Reading K) : Reading K :=
  match r.pending with
  | [] => r
  | .leaf key :: rest => ⟨rest, r.leaves ++ [key]⟩
  | .node _ children :: rest => ⟨pushEach rest children.reverse, r.leaves⟩

theorem sizeOfList_pending_step {r : Reading K} (h : r.pending ≠ []) :
    sizeOfList r.step.pending + 1 = sizeOfList r.pending := by
  obtain ⟨pending, leaves⟩ := r
  cases pending with
  | nil => exact absurd rfl h
  | cons t rest =>
    cases t with
    | leaf key => simp only [step, sizeOfList, size, Nat.add_comm]
    | node key children =>
      simp only [step, pushEach_reverse, sizeOfList_append, sizeOfList, size]
      omega

/-- Read until no tree is pending. -/
def finish (r : Reading K) : List K :=
  if r.pending.isEmpty then r.leaves else r.step.finish
termination_by sizeOfList r.pending
decreasing_by
  next h =>
    have := sizeOfList_pending_step fun hnil => h (List.isEmpty_iff.2 hnil)
    omega

end Reading

/-- The keys of the leaves of several trees. -/
def leavesOf (ts : List (Tree K)) : List K := (Reading.start ts).finish

/-- The keys of the leaves from left to right. -/
def leaves (t : Tree K) : List K := leavesOf [t]

/-! ### Text -/

mutual

/-- A tree on one line: `Leaf(k)`, or `Node(k, [...])` with the subtrees. -/
def text [Literal K] : Tree K → String
  | .leaf key => "Leaf(" ++ literal key ++ ")"
  | .node key children =>
    "Node(" ++ literal key ++ ", [" ++ ", ".intercalate (textsOfList children) ++ "])"

/-- The texts of a list of trees. -/
def textsOfList [Literal K] : List (Tree K) → List String
  | [] => []
  | t :: ts => text t :: textsOfList ts

end

instance [Literal K] : Literal (Tree K) := ⟨text⟩

end Tree

end ChartParsing
