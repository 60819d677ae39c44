import ChartParsing.Proofs.Chart.Rows
import ChartParsing.Proofs.Grammar.RuleLookup

/-!
# The entries of a chart

A finished chart is read through its entries: a span, a key and the number of the item for them. A
number belongs to one entry, and a span and a key to at most one; items with shorter spans have
smaller numbers. The item of an entry has the joints that the entries of its two parts give it.

## Main definitions

* `Chart.Lists`: the cell of a span lists a key with a number.

## Main results

* `Chart.Lists.exists_item`, `Chart.lists_of_item?`: entries and items are the same.
* `Chart.Lists.number_eq`, `Chart.get?_eq_some_iff`: one item for a span and a key.
* `Chart.mem_joined`: what can be joined over a span, from the entries of its parts.
* `Chart.Lists.item?_of_length_eq_one`, `Chart.Lists.item?_of_one_lt`: the joints of an item.
-/

namespace ChartParsing

universe u v

variable {K : Type u} {V : Type v}

/-- The relation `c.Lists s key number`: the cell of `s` lists `key` with the item `number`. -/
def Chart.Lists (c : Chart K) (s : Span) (key : K) (number : Nat) : Prop :=
  ∃ cell, c.cell? s.length s.start = some cell ∧ (key, number) ∈ cell.entries

namespace Chart

variable [DecidableEq K] [DecidableEq V] {t : RuleTable K V} {input : List V}

/-! ### Entries and items -/

theorem Lists.within {s : Span} {key : K} {number : Nat}
    (h : (ofInput t input).Lists s key number) : s.Within input.length := by
  obtain ⟨cell, hcell, -⟩ := h
  exact within_of_cell?_ofInput hcell

theorem lists_ofInput_iff {s : Span} (hs : s.Within input.length) {key : K} {number : Nat} :
    (ofInput t input).Lists s key number ↔
      ∃ i joints, number = firstOver t input s + i ∧
        ((ofInput t input).contents t input s)[i]? = some (key, joints) := by
  have hentries : (ofInput t input).Lists s key number ↔
      (key, number) ∈ (((ofInput t input).contents t input s).map Prod.fst).zipIdx
        (firstOver t input s) := by
    rw [Lists, cell?_ofInput hs]
    exact ⟨fun ⟨_, hcell, hmem⟩ => by cases hcell; exact hmem, fun hmem => ⟨_, rfl, hmem⟩⟩
  rw [hentries, List.mk_mem_zipIdx_iff_le_and_getElem?_sub, List.getElem?_map,
    Option.map_eq_some_iff]
  constructor
  · rintro ⟨hle, ⟨key', joints⟩, hget, rfl⟩
    exact ⟨number - firstOver t input s, joints, by omega, hget⟩
  · rintro ⟨i, joints, rfl, hget⟩
    exact ⟨Nat.le_add_right _ _, ⟨key, joints⟩, by rwa [Nat.add_sub_cancel_left], rfl⟩

/-- The item of an entry has the span and the key of the entry. -/
theorem Lists.exists_item {s : Span} {key : K} {number : Nat}
    (h : (ofInput t input).Lists s key number) :
    ∃ joints, (ofInput t input).item? number = some ⟨key, s, joints⟩ ∧
      (key, joints) ∈ (ofInput t input).contents t input s := by
  obtain ⟨i, joints, rfl, hget⟩ := (lists_ofInput_iff h.within).1 h
  exact ⟨joints, item?_ofInput h.within hget, List.mem_of_getElem? hget⟩

theorem Lists.eq_of_number {s s' : Span} {key key' : K} {number : Nat}
    (h : (ofInput t input).Lists s key number) (h' : (ofInput t input).Lists s' key' number) :
    s = s' ∧ key = key' := by
  obtain ⟨joints, hitem, -⟩ := h.exists_item
  obtain ⟨joints', hitem', -⟩ := h'.exists_item
  cases hitem.symm.trans hitem'
  exact ⟨rfl, rfl⟩

theorem Lists.lt_size {s : Span} {key : K} {number : Nat}
    (h : (ofInput t input).Lists s key number) : number < (ofInput t input).items.size := by
  obtain ⟨joints, hitem, -⟩ := h.exists_item
  exact (Array.getElem?_eq_some_iff.1 hitem).1

/-- Every item is listed in the cell of its span. -/
theorem lists_of_item? {number : Nat} {item : Item K}
    (h : (ofInput t input).item? number = some item) :
    (ofInput t input).Lists item.span item.key number := by
  obtain ⟨s, hs, hle, hlt⟩ := exists_span_of_lt (t := t) (Array.getElem?_eq_some_iff.1 h).1
  have hget := List.getElem?_eq_getElem
    (show number - firstOver t input s < ((ofInput t input).contents t input s).length by omega)
  have hitem := item?_ofInput hs hget
  rw [Nat.add_sub_cancel' hle, h] at hitem
  cases hitem
  exact (lists_ofInput_iff hs).2 ⟨_, _, (Nat.add_sub_cancel' hle).symm, hget⟩

/-- A number in a cell is that of the item for the contents at the same place. -/
theorem exists_item_of_getElem?_numbersOver {length start k number : Nat}
    (h : ((ofInput t input).numbersOver length start)[k]? = some number) :
    Span.Within ⟨length, start⟩ input.length ∧ ∃ key joints,
      ((ofInput t input).contents t input ⟨length, start⟩)[k]? = some (key, joints) ∧
      (ofInput t input).item? number = some ⟨key, ⟨length, start⟩, joints⟩ := by
  have hs : Span.Within ⟨length, start⟩ input.length := by
    cases hcell : (ofInput t input).cell? length start with
    | none => simp [numbersOver, hcell] at h
    | some cell => exact within_of_cell?_ofInput hcell
  rw [show (ofInput t input).numbersOver length start = _ from numbersOver_ofInput hs] at h
  obtain ⟨hk, hnumber⟩ := List.getElem?_eq_some_iff.1 h
  rw [List.length_range'] at hk
  rw [List.getElem_range', Nat.one_mul] at hnumber
  have hentry := List.getElem?_eq_getElem hk
  exact ⟨hs, _, _, hentry, hnumber ▸ item?_ofInput hs hentry⟩

theorem exists_lists_iff {s : Span} (hs : s.Within input.length) {key : K} :
    (∃ number, (ofInput t input).Lists s key number) ↔
      key ∈ ((ofInput t input).contents t input s).map Prod.fst := by
  simp only [lists_ofInput_iff hs, List.mem_map]
  constructor
  · rintro ⟨_, i, joints, -, hget⟩
    exact ⟨(key, joints), List.mem_of_getElem? hget, rfl⟩
  · rintro ⟨⟨_, joints⟩, hmem, rfl⟩
    obtain ⟨i, hget⟩ := List.mem_iff_getElem?.1 hmem
    exact ⟨_, i, joints, rfl, hget⟩

/-- Items over shorter spans, and over spans of one length those further to the left, have smaller
numbers. -/
theorem Lists.number_lt {s s' : Span} {key key' : K} {number number' : Nat}
    (h : (ofInput t input).Lists s key number) (h' : (ofInput t input).Lists s' key' number')
    (hlt : s.length < s'.length ∨ s.length = s'.length ∧ s.start < s'.start) :
    number < number' := by
  obtain ⟨i, joints, rfl, hget⟩ := (lists_ofInput_iff h.within).1 h
  obtain ⟨i', joints', rfl, -⟩ := (lists_ofInput_iff h'.within).1 h'
  have hi := (List.getElem?_eq_some_iff.1 hget).1
  exact Nat.lt_of_lt_of_le (firstOver_add_lt h.within hlt hi) (Nat.le_add_right _ _)

/-! ### Joining -/

omit [DecidableEq V] in
theorem mem_joinedIn {c : Chart K} {left right : Cell K} (hleft : left.Agrees c.items)
    (hright : right.Agrees c.items) {key : K} {joint : Joint} :
    (key, joint) ∈ joinedIn t c left right ↔
      ∃ leftKey rightKey, (leftKey, joint.left) ∈ left.entries ∧
        (rightKey, joint.right) ∈ right.entries ∧ key ∈ t.joining leftKey rightKey := by
  simp only [joinedIn_eq_of_agrees hleft hright, List.mem_flatMap, List.mem_map, Prod.mk.injEq]
  constructor
  · rintro ⟨⟨leftKey, l⟩, hl, ⟨rightKey, r⟩, hr, _, hkey, rfl, rfl⟩
    exact ⟨leftKey, rightKey, hl, hr, hkey⟩
  · rintro ⟨leftKey, rightKey, hl, hr, hkey⟩
    exact ⟨_, hl, _, hr, key, hkey, rfl, rfl⟩

omit [DecidableEq V] in
/-- Over a span the entries of its two parts are joined, for every length of the left part. -/
theorem mem_joined {c : Chart K} (hc : c.Agrees) {s : Span} {key : K} {joint : Joint} :
    (key, joint) ∈ c.joined t s ↔
      ∃ leftLength, 0 < leftLength ∧ leftLength < s.length ∧ ∃ leftKey rightKey,
        c.Lists ⟨leftLength, s.start⟩ leftKey joint.left ∧
        c.Lists ⟨s.length - leftLength, s.start + leftLength⟩ rightKey joint.right ∧
        key ∈ t.joining leftKey rightKey := by
  simp only [joined, List.mem_flatMap, List.mem_range'_1]
  constructor
  · rintro ⟨leftLength, hrange, hmem⟩
    split at hmem
    · next left right hleft hright =>
      obtain ⟨leftKey, rightKey, hl, hr, hkey⟩ := (mem_joinedIn (hc _ (mem_cells_of_cell? hleft))
        (hc _ (mem_cells_of_cell? hright))).1 hmem
      exact ⟨leftLength, by omega, by omega, leftKey, rightKey, ⟨left, hleft, hl⟩,
        ⟨right, hright, hr⟩, hkey⟩
    · cases hmem
  · rintro ⟨leftLength, hpos, hlt, leftKey, rightKey, ⟨left, hleft, hl⟩, ⟨right, hright, hr⟩,
      hkey⟩
    refine ⟨leftLength, by omega, ?_⟩
    simp only [hleft, hright]
    exact (mem_joinedIn (hc _ (mem_cells_of_cell? hleft)) (hc _ (mem_cells_of_cell? hright))).2
      ⟨leftKey, rightKey, hl, hr, hkey⟩

theorem contents_of_length_eq_one {c : Chart K} {s : Span} (hs : s.length = 1) {value : V}
    (hvalue : input[s.start]? = some value) :
    c.contents t input s = (t.producing value).map fun key => (key, []) := by
  rw [contents, if_pos hs, hvalue]

theorem contents_of_one_lt {c : Chart K} {s : Span} (hs : 1 < s.length) :
    c.contents t input s = grouped (c.joined t s) := by
  rw [contents, if_neg (by omega)]

/-! ### Charts of a grammar -/

section Grammar

variable {g : Grammar K V}

theorem nodup_keys_contents (g : Grammar K V) (input : List V) (c : Chart K) (s : Span) :
    ((c.contents (.ofGrammar g) input s).map Prod.fst).Nodup := by
  rw [contents]
  split
  · split
    · simpa [Function.comp_def] using RuleTable.nodup_producing g _
    · exact List.nodup_nil
  · rw [map_fst_grouped]
    exact nodup_distinct _

theorem nodup_keys_entries {s : Span} {cell : Cell K}
    (hcell : (ofInput (.ofGrammar g) input).cell? s.length s.start = some cell) :
    (cell.entries.map Prod.fst).Nodup := by
  cases hcell.symm.trans (cell?_ofInput (within_of_cell?_ofInput hcell))
  rw [Cell.numbered, List.zipIdx_map_fst]
  exact nodup_keys_contents g input _ _

/-- There is at most one item for a span and a key. -/
theorem Lists.number_eq {s : Span} {key : K} {number number' : Nat}
    (h : (ofInput (.ofGrammar g) input).Lists s key number)
    (h' : (ofInput (.ofGrammar g) input).Lists s key number') : number = number' := by
  obtain ⟨i, joints, rfl, hget⟩ := (lists_ofInput_iff h.within).1 h
  obtain ⟨i', joints', rfl, hget'⟩ := (lists_ofInput_iff h.within).1 h'
  have hkeys := nodup_keys_contents g input (ofInput (.ofGrammar g) input) s
  have hi : (((ofInput (.ofGrammar g) input).contents (.ofGrammar g) input s).map Prod.fst)[i]? =
      some key := by rw [List.getElem?_map, hget]; rfl
  have hi' : (((ofInput (.ofGrammar g) input).contents (.ofGrammar g) input s).map Prod.fst)[i']? =
      some key := by rw [List.getElem?_map, hget']; rfl
  rw [(List.getElem?_inj (List.getElem?_eq_some_iff.1 hi).1 hkeys).1 (hi.trans hi'.symm)]

/-- Looking up a key in a cell gives the number that it is listed with. -/
theorem get?_eq_some_iff {s : Span} {cell : Cell K}
    (hcell : (ofInput (.ofGrammar g) input).cell? s.length s.start = some cell) {key : K}
    {number : Nat} :
    cell.get? key = some number ↔ (ofInput (.ofGrammar g) input).Lists s key number := by
  have hlists : ∀ n, cell.get? key = some n → (ofInput (.ofGrammar g) input).Lists s key n :=
    fun n hget => ⟨cell, hcell, mem_of_lookup_eq_some hget⟩
  refine ⟨hlists number, fun h => ?_⟩
  obtain ⟨_, hcell', hmem⟩ := h
  cases hcell.symm.trans hcell'
  have hsome : (cell.get? key).isSome := by
    rw [Cell.get?, List.lookup_isSome_iff]
    exact ⟨_, hmem, beq_self_eq_true key⟩
  obtain ⟨n, hget⟩ := Option.isSome_iff_exists.1 hsome
  rw [hget, (hlists n hget).number_eq ⟨cell, hcell, hmem⟩]

end Grammar

/-- An item over one input value has no joints. -/
theorem Lists.item?_of_length_eq_one {s : Span} {key : K} {number : Nat}
    (h : (ofInput t input).Lists s key number) (hs : s.length = 1) :
    (ofInput t input).item? number = some ⟨key, s, []⟩ := by
  obtain ⟨joints, hitem, hmem⟩ := h.exists_item
  rw [contents, if_pos hs] at hmem
  split at hmem
  · obtain ⟨key', -, heq⟩ := List.mem_map.1 hmem
    cases heq
    exact hitem
  · cases hmem

/-- An item over more input values has the joints that are joined under its key. -/
theorem Lists.item?_of_one_lt {s : Span} {key : K} {number : Nat}
    (h : (ofInput t input).Lists s key number) (hs : 1 < s.length) :
    (ofInput t input).item? number =
      some ⟨key, s, valuesAt key ((ofInput t input).joined t s)⟩ := by
  obtain ⟨joints, hitem, hmem⟩ := h.exists_item
  rw [contents_of_one_lt hs] at hmem
  obtain ⟨key', -, heq⟩ := List.mem_map.1 hmem
  cases heq
  exact hitem

end Chart

end ChartParsing
