import ChartParsing.Forest.Graph

/-!
# Values of shared forests

A quantity that is defined by recursion on forests is computed for all nodes of a table in one pass:
when a node is met, the values of its children are known. So a shared part is computed once.

## Main definitions

* `ForestGraph.tabulate`: one value for each node, from the values of its children.
* `ForestGraph.forestAt?`: the forest that a node stands for.

## Main results

* `ForestGraph.getElem?_tabulate`: each value, from the values of the children.
* `ForestGraph.forestAt?_eq`: the forest of a node, from those of the children.
-/

namespace ChartParsing

universe u v

namespace ForestGraph

variable {K : Type u} {β : Type v}

/-- The value of one node, when the table holds the values of the nodes before it. -/
def valueOf (value : K → List (List β) → β) (table : Array β) (n : ForestNode K) : β :=
  value n.label (n.alternatives.map (List.filterMap (table[·]?)))

/-- One value for each node, computed from its label and the values of its children. -/
def tabulate (g : ForestGraph K) (value : K → List (List β) → β) : Array β :=
  g.nodes.foldl (fun table n => table.push (valueOf value table n)) #[]

/-- The forests that the nodes stand for. -/
def unfoldings (g : ForestGraph K) : Array (Forest K) := g.tabulate .node

/-- The forest that a node stands for. -/
def forestAt? (g : ForestGraph K) (i : Nat) : Option (Forest K) := g.unfoldings[i]?

/-! ### Adding nodes to a table of values -/

/-- The table after some more nodes. -/
def extendTable (value : K → List (List β) → β) (table : Array β) (nodes : List (ForestNode K)) :
    Array β :=
  nodes.foldl (fun table n => table.push (valueOf value table n)) table

private theorem extendTable_size (value : K → List (List β) → β) (table : Array β)
    (nodes : List (ForestNode K)) :
    (extendTable value table nodes).size = table.size + nodes.length := by
  induction nodes generalizing table with
  | nil => rfl
  | cons n nodes ih =>
    have hstep : extendTable value table (n :: nodes) =
        extendTable value (table.push (valueOf value table n)) nodes := rfl
    rw [hstep, ih, Array.size_push, List.length_cons]
    omega

private theorem getElem?_extendTable_of_lt (value : K → List (List β) → β) {table : Array β}
    {nodes : List (ForestNode K)} {i : Nat} (h : i < table.size) :
    (extendTable value table nodes)[i]? = table[i]? := by
  induction nodes generalizing table with
  | nil => rfl
  | cons n nodes ih =>
    have hlt : i < (table.push (valueOf value table n)).size := by simp; omega
    have hstep : extendTable value table (n :: nodes) =
        extendTable value (table.push (valueOf value table n)) nodes := rfl
    rw [hstep, ih hlt, Array.getElem?_push_lt h, Array.getElem?_eq_getElem h]

private theorem filterMap_eq_of_forall {α : Type} {f g : α → Option β} {l : List α}
    (h : ∀ a ∈ l, f a = g a) : l.filterMap f = l.filterMap g := by
  induction l with
  | nil => rfl
  | cons a l ih =>
    rw [List.filterMap_cons, List.filterMap_cons, h a List.mem_cons_self,
      ih fun b hb => h b (List.mem_cons_of_mem a hb)]

theorem valueOf_congr (value : K → List (List β) → β) {s t : Array β} {n : ForestNode K}
    (h : ∀ c ∈ n.children, s[c]? = t[c]?) : valueOf value s n = valueOf value t n := by
  have hmap : n.alternatives.map (List.filterMap (s[·]?)) =
      n.alternatives.map (List.filterMap (t[·]?)) :=
    List.map_congr_left fun l hl => filterMap_eq_of_forall fun c hc =>
      h c (List.mem_flatten.2 ⟨l, hl, hc⟩)
  rw [valueOf, valueOf, hmap]

private theorem getElem?_extendTable_add (value : K → List (List β) → β) (table : Array β)
    (nodes : List (ForestNode K)) (j : Nat)
    (h : ∀ n, nodes[j]? = some n → ∀ c ∈ n.children, c < table.size + j) :
    (extendTable value table nodes)[table.size + j]? =
      nodes[j]?.map (valueOf value (extendTable value table nodes)) := by
  induction nodes generalizing table j with
  | nil => simp [extendTable]
  | cons n nodes ih =>
    have hstep : extendTable value table (n :: nodes) =
        extendTable value (table.push (valueOf value table n)) nodes := rfl
    cases j with
    | zero =>
      rw [hstep, Nat.add_zero, getElem?_extendTable_of_lt value (by simp)]
      simp only [Array.getElem?_push_size, List.getElem?_cons_zero, Option.map_some]
      congr 1
      refine valueOf_congr value fun c hc => ?_
      have hc' : c < table.size := h n rfl c hc
      rw [getElem?_extendTable_of_lt value (by simp; omega), Array.getElem?_push_lt hc',
        Array.getElem?_eq_getElem hc']
    | succ j =>
      have hj := ih (table.push (valueOf value table n)) j fun m hm c hc => by
        have := h m (by simpa using hm) c hc
        simp only [Array.size_push]; omega
      rw [hstep, List.getElem?_cons_succ, ← hj, Array.size_push]
      congr 1
      omega

/-! ### The finished table -/

variable (g : ForestGraph K) (value : K → List (List β) → β)

private theorem tabulate_eq_extendTable :
    g.tabulate value = extendTable value #[] g.nodes.toList := by
  rw [tabulate, ← Array.foldl_toList]
  rfl

theorem size_tabulate : (g.tabulate value).size = g.size := by
  rw [tabulate_eq_extendTable, extendTable_size]
  simp [size]

/-- The value of a node, from the values that the table holds for its children. -/
theorem getElem?_tabulate (i : Nat) :
    (g.tabulate value)[i]? = g.nodes[i]?.map (valueOf value (g.tabulate value)) := by
  have hchildren : ∀ n, g.nodes.toList[i]? = some n →
      ∀ c ∈ n.children, c < (#[] : Array β).size + i := by
    intro n hn c hc
    obtain ⟨hi, rfl⟩ := List.getElem?_eq_some_iff.1 hn
    simpa using g.children_lt i (by simpa using hi) c (by simpa using hc)
  have h := getElem?_extendTable_add value #[] g.nodes.toList i hchildren
  rw [← tabulate_eq_extendTable] at h
  simpa using h

theorem forestAt?_eq (i : Nat) :
    g.forestAt? i = g.nodes[i]?.map fun n =>
      .node n.label (n.alternatives.map (List.filterMap g.forestAt?)) :=
  g.getElem?_tabulate Forest.node i

end ForestGraph

end ChartParsing
