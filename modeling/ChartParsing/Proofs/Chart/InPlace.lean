import ChartParsing.Proofs.Chart.Rows
import ChartParsing.Proofs.Distinct
import ChartParsing.Proofs.Forest.Unfolding

/-!
# Filling a chart in place

A chart is filled by writing to it: a row of empty cells is added, and then items are created and
joints are recorded, one by one. Every step rests on conditions that need not be checked when it is
taken: what is subtracted is not larger, the row, the cell and the item that are read or written
exist, and the parts of a joint are shorter than the span and stand side by side. Here each of them
is checked, and a filling in which one fails has no result. A step that succeeds writes one more
item or one more joint to the last cell of the row.

## Main definitions

* `difference?`: subtraction of a number that is not larger.
* `Chart.pushRow?`, `Chart.getOrCreate?`, `Chart.derive?`: the steps.
* `Chart.fillTerminals?`, `Chart.fillCell?`, `Chart.fillRow?`, `Chart.fillInPlace?`: the loops over
  them.
* `Chart.withRow`: a chart with a row of which some cells are filled.

## Main results

* `foldlM_eq_some_of_step`: a loop whose steps succeed, by the states between them.
* `Chart.pushRow?_eq`, `Chart.getOrCreate?_withRow_of_notMem`, `Chart.derive?_withRow`: what the
  steps write.
-/

namespace ChartParsing

universe u v w

/-! ### Loops -/

/-- A loop leads from its first to its last state if each step leads to the next one. -/
theorem foldlM_eq_some_of_step {σ : Type u} {α : Type v} {f : σ → α → Option σ} {l : List α}
    (state : Nat → σ)
    (step : ∀ k a, l[k]? = some a → f (state k) a = some (state (k + 1))) :
    l.foldlM f (state 0) = some (state l.length) := by
  induction l generalizing state with
  | nil => rfl
  | cons a l ih =>
    rw [List.foldlM_cons, step 0 a rfl]
    exact ih (fun k => state (k + 1)) fun k b hb => step (k + 1) b hb

/-- The lists found for the items of a list one after another, if there is one for each of them. -/
def collect? {α : Type u} {β : Type v} (l : List α) (f : α → Option (List β)) : Option (List β) :=
  (l.mapM f).map List.flatten

theorem collect?_eq {α : Type u} {β : Type v} {l : List α} {f : α → Option (List β)}
    {g : α → List β} (h : ∀ a ∈ l, f a = some (g a)) : collect? l f = some (l.flatMap g) := by
  rw [collect?, mapM_eq_some_map h]
  rfl

/-! ### Steps with checks -/

/-- The difference of two numbers, if the second one is not larger. -/
def difference? (a b : Nat) : Option Nat :=
  if b ≤ a then some (a - b) else none

theorem difference?_of_le {a b : Nat} (h : b ≤ a) : difference? a b = some (a - b) :=
  if_pos h

namespace Chart

variable {K : Type u} {V : Type v}

/-- Add a row of empty cells, for the spans of the next length. -/
def pushRow? (c : Chart K) : Option (Chart K) :=
  (difference? c.inputLength (c.rows.size + 1)).map fun last =>
    { c with rows := c.rows.push (.replicate (last + 1) .empty) }

/-- The cell of a span, to be read or written to. -/
def cellOver? (c : Chart K) (s : Span) : Option (Cell K) :=
  (difference? s.length 1).bind fun row => c.rows[row]?.bind (·[s.start]?)

/-- Enter an item into the cell of a span, in the order of creation and under its key. -/
def addToCell? (c : Chart K) (s : Span) (key : K) (number : Nat) : Option (Chart K) :=
  (c.cellOver? s).map fun cell =>
    { c with
      rows := c.rows.modify (s.length - 1) fun cells =>
        cells.setIfInBounds s.start (cell.add key number) }

/-- Record a joint with an item. -/
def addJoint? (c : Chart K) (number : Nat) (joint : Joint) : Option (Chart K) :=
  (c.item? number).map fun item =>
    { c with items := c.items.setIfInBounds number { item with joints := item.joints ++ [joint] } }

section Steps

variable [DecidableEq K]

/-- The number of the item for a span and a key, which is created if it is missing. -/
def getOrCreate? (c : Chart K) (s : Span) (key : K) : Option (Chart K × Nat) :=
  (c.cellOver? s).bind fun cell =>
    match cell.get? key with
    | some number => some (c, number)
    | none =>
      ({ c with items := c.items.push ⟨key, s, []⟩ }.addToCell? s key c.items.size).map
        (·, c.items.size)

/-- Record that two items make up one for a span and a key. The items have to be shorter than the
span and to stand side by side. -/
def derive? (c : Chart K) (s : Span) (key : K) (joint : Joint) : Option (Chart K) :=
  (c.item? joint.left).bind fun left =>
    (c.item? joint.right).bind fun right =>
      if left.span.length < s.length ∧ right.span.length < s.length ∧
          left.span.stop = right.span.start then
        (c.getOrCreate? s key).bind fun (c, number) => c.addJoint? number joint
      else none

end Steps

/-! ### Loops with checks -/

section Loops

variable [DecidableEq K] [DecidableEq V] (t : RuleTable K V) (input : List V)

/-- An item joined to those of a cell on its right, with their keys read from the items. -/
def joinedWith? (c : Chart K) (leftKey : K) (leftNumber : Nat) (right : Cell K) :
    Option (List (K × Joint)) :=
  collect? right.numbers fun rightNumber =>
    (c.item? rightNumber).map fun rightItem =>
      (t.joining leftKey rightItem.key).map fun key => (key, ⟨leftNumber, rightNumber⟩)

/-- The items of two cells joined. An item is passed over if nothing can be joined to it. -/
def joinedIn? (c : Chart K) (left right : Cell K) : Option (List (K × Joint)) :=
  collect? left.numbers fun leftNumber =>
    (c.item? leftNumber).bind fun leftItem =>
      match t.joinsFrom? leftItem.key with
      | none => some []
      | some _ => joinedWith? t c leftItem.key leftNumber right

/-- The items that make up a span joined, for each length of the left part. Both parts have to have
a cell. -/
def joined? (c : Chart K) (s : Span) : Option (List (K × Joint)) :=
  collect? (List.range' 1 (s.length - 1)) fun leftLength =>
    (difference? s.length leftLength).bind fun rightLength =>
      (c.cell? leftLength s.start).bind fun left =>
        (c.cell? rightLength (s.start + leftLength)).bind fun right =>
          joinedIn? t c left right

/-- Fill the row of single values: an item for each key that produces the value. -/
def fillTerminals? (c : Chart K) : Option (Chart K) :=
  c.pushRow?.bind fun c =>
    input.zipIdx.foldlM
      (fun c entry => (t.producing entry.1).foldlM
        (fun c key => (c.getOrCreate? ⟨1, entry.2⟩ key).map Prod.fst) c) c

/-- Fill the cell of a longer span: join the items of its parts, then record the joints. -/
def fillCell? (c : Chart K) (s : Span) : Option (Chart K) :=
  (joined? t c s).bind fun joined =>
    joined.foldlM (fun c entry => c.derive? s entry.1 entry.2) c

/-- Fill the row of the spans of a length. -/
def fillRow? (c : Chart K) (length : Nat) : Option (Chart K) :=
  c.pushRow?.bind fun c =>
    (difference? input.length length).bind fun last =>
      (List.range (last + 1)).foldlM (fun c start => fillCell? t c ⟨length, start⟩) c

/-- Fill the chart of an input: the single values first, then the longer spans by length. -/
def fillInPlace? : Option (Chart K) :=
  (fillTerminals? t input ⟨input.length, #[], #[]⟩).bind fun c =>
    (List.range' 2 (input.length - 1)).foldlM (fillRow? t input) c

end Loops

/-! ### A row that is being filled -/

/-- The chart with one more row, whose first cells are those of an open row and whose other cells,
up to the given number, are empty. -/
def withRow (c : Chart K) (width : Nat) (r : OpenRow K) : Chart K where
  inputLength := c.inputLength
  rows := c.rows.push (r.cells ++ .replicate (width - r.cells.size) .empty)
  items := r.items

variable {c : Chart K} {r : OpenRow K} {s : Span} {width : Nat} {contents : List (K × List Joint)}

/-- A row is added with empty cells only. -/
theorem pushRow?_eq (h : c.rows.size < c.inputLength) :
    c.pushRow? = some (c.withRow (c.inputLength - c.rows.size) ⟨#[], c.items⟩) := by
  have hwidth : c.inputLength - (c.rows.size + 1) + 1 = c.inputLength - c.rows.size := by omega
  rw [pushRow?, difference?_of_le h, Option.map_some, hwidth]
  simp [withRow]

theorem withRow_addCell_nil (h : r.cells.size < width) (s : Span) :
    c.withRow width (r.addCell s []) = c.withRow width r := by
  have hcells : r.cells.push .empty ++ Array.replicate (width - (r.cells.size + 1)) .empty =
      r.cells ++ Array.replicate (width - r.cells.size) (.empty : Cell K) := by
    rw [show width - r.cells.size = width - (r.cells.size + 1) + 1 by omega]
    exact Array.ext' (by simp [List.replicate_succ])
  simp [withRow, OpenRow.addCell, OpenCell.filled, hcells]

theorem withRow_openRow [DecidableEq K] [DecidableEq V] (t : RuleTable K V) (input : List V)
    (c : Chart K) :
    c.withRow (c.inputLength - c.rows.size) (c.openRow t input (c.inputLength - c.rows.size)) =
      c.addRow t input := by
  simp [withRow, addRow, size_cells_openRow]

theorem cell?_withRow {length : Nat} (h : length ≤ c.rows.size) (start : Nat) :
    (c.withRow width r).cell? length start = c.cell? length start := by
  cases length with
  | zero => rfl
  | succ row => rw [cell?, cell?, withRow, Array.getElem?_push_lt h, ← Array.getElem?_eq_getElem]

private theorem getElem?_rows_withRow (c : Chart K) (width : Nat) (r : OpenRow K) :
    (c.withRow width r).rows[c.rows.size]? =
      some (r.cells ++ .replicate (width - r.cells.size) .empty) :=
  Array.getElem?_push_size

/-! ### Writing to a row -/

private theorem setIfInBounds_push_size {α : Type w} (xs : Array α) (a b : α) :
    (xs.push a).setIfInBounds xs.size b = xs.push b :=
  Array.ext' (by simp)

private theorem modify_push_size {α : Type w} (xs : Array α) (a : α) (f : α → α) :
    (xs.push a).modify xs.size f = xs.push (f a) := by
  rw [← Array.length_toList]
  refine Array.ext' ?_
  rw [Array.toList_modify, Array.toList_push, List.modify_eq_take_cons_drop (by simp)]
  simp

private theorem cellOver?_withRow (hs : s = ⟨c.rows.size + 1, r.cells.size⟩)
    (contents : List (K × List Joint)) :
    (c.withRow width (r.addCell s contents)).cellOver? s =
      some (.numbered (contents.map Prod.fst) r.items.size) := by
  have hlt : s.start < (r.addCell s contents).cells.size := by
    rw [hs, OpenRow.cells_addCell, Array.size_push]
    exact Nat.lt_succ_self _
  rw [cellOver?, difference?_of_le (by simp [hs]), Option.bind_some,
    show s.length - 1 = c.rows.size by simp [hs], getElem?_rows_withRow, Option.bind_some,
    Array.getElem?_append_left hlt, OpenRow.cells_addCell, show s.start = r.cells.size by simp [hs],
    Array.getElem?_push_size]

private theorem addToCell?_withRow (hs : s = ⟨c.rows.size + 1, r.cells.size⟩)
    (contents : List (K × List Joint)) (key : K) :
    { c.withRow width (r.addCell s contents) with
      items := (r.addCell s contents).items.push ⟨key, s, []⟩ }.addToCell? s key
        (r.addCell s contents).items.size =
      some (c.withRow width (r.addCell s (contents ++ [(key, [])]))) := by
  have hrow : s.length - 1 = c.rows.size := by simp [hs]
  have hstart : s.start = r.cells.size := by simp [hs]
  rw [addToCell?]
  show ((c.withRow width (r.addCell s contents)).cellOver? s).map _ = _
  rw [cellOver?_withRow hs, Option.map_some, hrow, hstart, withRow, modify_push_size,
    OpenRow.size_items_addCell]
  simp [OpenRow.addCell, OpenCell.filled_eq, withRow, setIfInBounds_push_size,
    Cell.numbered_concat]

private theorem lookup_zipIdx [DecidableEq K] {keys : List K} (hkeys : keys.Nodup) {i : Nat}
    {key : K} (hi : keys[i]? = some key) (first : Nat) :
    (keys.zipIdx first).lookup key = some (first + i) := by
  induction keys generalizing i first with
  | nil => cases hi
  | cons a keys ih =>
    rw [List.nodup_cons] at hkeys
    cases i with
    | zero =>
      cases hi
      rw [List.zipIdx_cons, List.lookup_cons_self, Nat.add_zero]
    | succ i =>
      have hne : (key == a) = false := by
        rw [beq_eq_false_iff_ne]
        rintro rfl
        exact hkeys.1 (List.mem_of_getElem? hi)
      rw [List.zipIdx_cons, List.lookup_cons, hne, ih hkeys.2 hi, Nat.add_right_comm, Nat.add_assoc]

section Steps

variable [DecidableEq K]

/-- An item is created for a key that is not in the cell. -/
theorem getOrCreate?_withRow_of_notMem (hs : s = ⟨c.rows.size + 1, r.cells.size⟩) {key : K}
    (hkey : key ∉ contents.map Prod.fst) :
    (c.withRow width (r.addCell s contents)).getOrCreate? s key =
      some (c.withRow width (r.addCell s (contents ++ [(key, [])])),
        r.items.size + contents.length) := by
  have hget : (Cell.numbered (contents.map Prod.fst) r.items.size).get? key = none := by
    rw [Cell.get?, List.lookup_eq_none_iff]
    rintro ⟨key', number⟩ hmem
    have hkey' : key' ∈ contents.map Prod.fst := List.fst_mem_of_mem_zipIdx hmem
    simpa using (ne_of_mem_of_not_mem hkey' hkey).symm
  rw [getOrCreate?, cellOver?_withRow hs, Option.bind_some]
  simp only [hget]
  show ({ c.withRow width (r.addCell s contents) with
      items := (r.addCell s contents).items.push ⟨key, s, []⟩ }.addToCell? s key
        (r.addCell s contents).items.size).map (·, (r.addCell s contents).items.size) = _
  rw [addToCell?_withRow hs, OpenRow.size_items_addCell, Option.map_some]

private theorem getOrCreate?_withRow_of_getElem? (hs : s = ⟨c.rows.size + 1, r.cells.size⟩)
    (hkeys : (contents.map Prod.fst).Nodup) {i : Nat} {key : K} {joints : List Joint}
    (hi : contents[i]? = some (key, joints)) :
    (c.withRow width (r.addCell s contents)).getOrCreate? s key =
      some (c.withRow width (r.addCell s contents), r.items.size + i) := by
  have hget : (Cell.numbered (contents.map Prod.fst) r.items.size).get? key =
      some (r.items.size + i) :=
    lookup_zipIdx hkeys (by rw [List.getElem?_map, hi]; rfl) _
  rw [getOrCreate?, cellOver?_withRow hs, Option.bind_some]
  simp only [hget]

omit [DecidableEq K] in
private theorem addJoint?_withRow {i : Nat} {key : K} {joints : List Joint}
    (hi : contents[i]? = some (key, joints)) (joint : Joint) :
    (c.withRow width (r.addCell s contents)).addJoint? (r.items.size + i) joint =
      some (c.withRow width (r.addCell s (contents.set i (key, joints ++ [joint])))) := by
  have hitem : (r.addCell s contents).items[r.items.size + i]? = some ⟨key, s, joints⟩ := by
    rw [← Array.getElem?_toList, OpenRow.toList_items_addCell, ← Array.length_toList,
      List.getElem?_append_right (Nat.le_add_right _ _), Nat.add_sub_cancel_left, List.getElem?_map,
      hi]
    rfl
  have hitems : (r.addCell s contents).items.setIfInBounds (r.items.size + i)
      ⟨key, s, joints ++ [joint]⟩ =
        (r.addCell s (contents.set i (key, joints ++ [joint]))).items := by
    refine Array.ext' ?_
    rw [Array.toList_setIfInBounds, OpenRow.toList_items_addCell, OpenRow.toList_items_addCell,
      ← Array.length_toList, List.set_append_right _ _ (Nat.le_add_right _ _),
      Nat.add_sub_cancel_left, List.map_set]
  have hkeys : (contents.set i (key, joints ++ [joint])).map Prod.fst = contents.map Prod.fst := by
    have hkey : (contents.map Prod.fst)[i]? = some key := by
      rw [List.getElem?_map, hi]
      rfl
    obtain ⟨hlt, hget⟩ := List.getElem?_eq_some_iff.1 hkey
    rw [List.map_set, ← hget, List.set_getElem_self]
  have hcells : (r.addCell s (contents.set i (key, joints ++ [joint]))).cells =
      (r.addCell s contents).cells := by
    rw [OpenRow.cells_addCell, OpenRow.cells_addCell, hkeys]
  rw [addJoint?]
  show ((r.addCell s contents).items[r.items.size + i]?).map _ = _
  rw [hitem, Option.map_some, withRow, withRow, hcells, ← hitems]

/-- Recording a joint puts it into the group of its key. -/
theorem derive?_withRow (hs : s = ⟨c.rows.size + 1, r.cells.size⟩) {joined : List (K × Joint)}
    {key : K} {joint : Joint} {left right : Item K}
    (hleft : (c.withRow width (r.addCell s (grouped joined))).item? joint.left = some left)
    (hright : (c.withRow width (r.addCell s (grouped joined))).item? joint.right = some right)
    (hside : left.span.length < s.length ∧ right.span.length < s.length ∧
      left.span.stop = right.span.start) :
    (c.withRow width (r.addCell s (grouped joined))).derive? s key joint =
      some (c.withRow width (r.addCell s (grouped (joined ++ [(key, joint)])))) := by
  rw [derive?, hleft, Option.bind_some, hright, Option.bind_some, if_pos hside]
  by_cases hkey : key ∈ joined.map Prod.fst
  · have hmem : key ∈ (grouped joined).map Prod.fst := by
      rw [map_fst_grouped]
      exact mem_distinct.2 hkey
    obtain ⟨⟨_, joints⟩, hentry, rfl⟩ := List.mem_map.1 hmem
    obtain ⟨i, hi⟩ := List.mem_iff_getElem?.1 hentry
    have hnodup : ((grouped joined).map Prod.fst).Nodup := map_fst_grouped joined ▸ nodup_distinct _
    rw [getOrCreate?_withRow_of_getElem? hs hnodup hi, Option.bind_some,
      grouped_concat_of_getElem? hi]
    exact addJoint?_withRow hi joint
  · have hnew : key ∉ (grouped joined).map Prod.fst := by
      rw [map_fst_grouped]
      exact mt mem_distinct.1 hkey
    have hlast : (grouped joined ++ [(key, [])])[(grouped joined).length]? = some (key, []) := by
      simp
    rw [getOrCreate?_withRow_of_notMem hs hnew, Option.bind_some, grouped_concat_of_notMem hkey]
    refine (addJoint?_withRow hlast joint).trans ?_
    simp

end Steps

end Chart

end ChartParsing
