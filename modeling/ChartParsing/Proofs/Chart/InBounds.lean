import ChartParsing.Proofs.Chart.InPlace
import ChartParsing.Proofs.Chart.Numbering

/-!
# Charts are filled within their bounds

While the row of the spans of one length is filled, the rows before it are complete: they have a
cell for every shorter span, and the items that a cell lists are there and stand over its span. So
whatever a step reads or writes exists, and both parts of a span can be looked up. Filling in place
goes from each state of the chart to the next one.

## Main definitions

* `Chart.Complete`: the rows of a chart are complete.

## Main results

* `Chart.complete_filled`: the rows that are filled are complete.
* `Chart.Complete.joined?_eq`, `Chart.Complete.derive?_eq`: what is read and written while a cell is
  filled.
* `Chart.Complete.fillCell?_eq`, `Chart.Complete.fillRow?_eq`, `Chart.fillInPlace?_eq`: the loops.
* `Parser.chart_in_bounds`: no check fails, and the result is the chart.
-/

namespace ChartParsing

universe u v w

namespace Chart

variable {K : Type u} {V : Type v} {c : Chart K} {r : OpenRow K} {s : Span} {width : Nat}

/-! ### Reading earlier rows -/

private theorem length_le_size_of_cell? {length start : Nat} {cell : Cell K}
    (h : c.cell? length start = some cell) : length ≤ c.rows.size := by
  cases length with
  | zero => exact Nat.zero_le _
  | succ row =>
    obtain ⟨cells, hcells, -⟩ := Option.bind_eq_some_iff.1 h
    exact (Array.getElem?_eq_some_iff.1 hcells).1

private theorem collect?_numbers {α : Type w} {cell : Cell K} (hcell : cell.Agrees c.items)
    {f : Nat → Option (List α)} {g : K × Nat → List α}
    (h : ∀ entry ∈ cell.entries, f entry.2 = some (g entry)) :
    collect? cell.numbers f = some (cell.entries.flatMap g) := by
  rw [collect?, hcell.numbers_eq, List.mapM_map]
  exact collect?_eq h

private theorem joinedIn?_eq [DecidableEq K] {t : RuleTable K V} {left right : Cell K}
    (hleft : left.Agrees c.items) (hright : right.Agrees c.items) :
    joinedIn? t c left right = some (joinedIn t c left right) := by
  have hwith : ∀ key number, joinedWith? t c key number right =
      some (right.entries.flatMap fun r =>
        (t.joining key r.1).map fun joinedKey => (joinedKey, ⟨number, r.2⟩)) := by
    intro key number
    refine collect?_numbers hright fun entry hentry => ?_
    obtain ⟨item, hitem, hkey⟩ := hright.key_eq entry hentry
    rw [item?, hitem, Option.map_some, hkey]
  rw [joinedIn_eq_of_agrees hleft hright]
  refine collect?_numbers hleft fun entry hentry => ?_
  obtain ⟨item, hitem, hkey⟩ := hleft.key_eq entry hentry
  rw [item?, hitem, Option.bind_some, hkey]
  cases hjoins : t.joinsFrom? entry.1 with
  | none => simp [RuleTable.joining, hjoins]
  | some _ => exact hwith _ _

/-- The rows of a chart for `n` values are complete: all spans that are no longer than there are
rows have cells, and the items that a cell lists are there and stand over its span. -/
structure Complete (c : Chart K) (n : Nat) : Prop where
  /-- The cells agree with the items. -/
  agrees : c.Agrees
  /-- The spans of rows that are there have cells. -/
  exists_cell : ∀ s : Span, s.Within n → s.length ≤ c.rows.size →
    ∃ cell, c.cell? s.length s.start = some cell
  /-- The item of an entry has the span and the key of the entry. -/
  exists_item : ∀ s key number, c.Lists s key number →
    ∃ joints, c.item? number = some ⟨key, s, joints⟩

section Filling

variable [DecidableEq K] [DecidableEq V] {t : RuleTable K V} {input : List V} {rows n : Nat}

/-- The rows that are filled are complete. -/
theorem complete_filled (hrows : rows < input.length) :
    (filled t input rows).Complete input.length where
  agrees := agrees_filled t input rows
  exists_cell s hs hlength := by
    rw [size_rows_filled] at hlength
    rw [← cell?_filled_of_le t input hlength (Nat.le_of_lt hrows)]
    exact ⟨_, cell?_ofInput hs⟩
  exists_item s key number h := by
    obtain ⟨cell, hcell, hmem⟩ := h
    have hlength : s.length ≤ rows := size_rows_filled t input rows ▸ length_le_size_of_cell? hcell
    obtain ⟨item, hitem, -⟩ := (agrees_filled t input rows cell (mem_cells_of_cell? hcell)).key_eq
      (key, number) hmem
    -- The item is that of the finished chart, which lists it for the same span.
    have hprefix : (filled t input rows).items.toList <+: (ofInput t input).items.toList :=
      isPrefix_items_nextRow t input hrows (Nat.zero_le _)
    have hlists : (ofInput t input).Lists s key number :=
      ⟨cell, (cell?_filled_of_le t input hlength (Nat.le_of_lt hrows) _).trans hcell, hmem⟩
    obtain ⟨joints, hitem', -⟩ := hlists.exists_item
    cases (item?_of_isPrefix hprefix hitem).symm.trans hitem'
    exact ⟨joints, hitem⟩

omit [DecidableEq V] in
/-- While the next row is filled, both parts of a span have cells, and the items in them are
there. -/
theorem Complete.joined?_eq (hc : c.Complete n) (hs : s.Within n)
    (hlength : s.length = c.rows.size + 1) (hitems : c.items.toList <+: r.items.toList) :
    joined? t (c.withRow width r) s = some (c.joined t s) := by
  refine collect?_eq fun leftLength hmem => ?_
  rw [List.mem_range'_1] at hmem
  have hlt : leftLength < s.length := by omega
  obtain ⟨left, hleft⟩ := hc.exists_cell _ (hs.leftPart (by omega) hlt) (by simp only; omega)
  obtain ⟨right, hright⟩ := hc.exists_cell _ (hs.rightPart hlt) (by simp only; omega)
  have hagrees := hc.agrees left (mem_cells_of_cell? hleft)
  have hagrees' := hc.agrees right (mem_cells_of_cell? hright)
  -- The items that the row has so far do not matter for cells of other rows.
  have hjoined : joinedIn t (c.withRow width r) left right = joinedIn t c left right :=
    (joinedIn_eq_of_agrees (hagrees.mono hitems) (hagrees'.mono hitems)).trans
      (joinedIn_eq_of_agrees hagrees hagrees').symm
  rw [difference?_of_le (Nat.le_of_lt hlt), Option.bind_some, cell?_withRow (by omega),
    cell?_withRow (by omega), hleft, Option.bind_some, hright, Option.bind_some,
    joinedIn?_eq (hagrees.mono hitems) (hagrees'.mono hitems), hjoined]

omit [DecidableEq V] in
/-- The parts of a joint are shorter than the span and stand side by side, so it is recorded. -/
theorem Complete.derive?_eq (hc : c.Complete n) (hs : s = ⟨c.rows.size + 1, r.cells.size⟩)
    (hitems : c.items.toList <+: r.items.toList) {key : K} {joint : Joint}
    (hjoint : (key, joint) ∈ c.joined t s) (joined : List (K × Joint)) :
    (c.withRow width (r.addCell s (grouped joined))).derive? s key joint =
      some (c.withRow width (r.addCell s (grouped (joined ++ [(key, joint)])))) := by
  obtain ⟨leftLength, hpos, hlt, leftKey, rightKey, hleft, hright, -⟩ :=
    (mem_joined hc.agrees).1 hjoint
  obtain ⟨_, hleftItem⟩ := hc.exists_item _ _ _ hleft
  obtain ⟨_, hrightItem⟩ := hc.exists_item _ _ _ hright
  have hitems' : c.items.toList <+: (r.addCell s (grouped joined)).items.toList := by
    rw [OpenRow.toList_items_addCell]
    exact hitems.trans (List.prefix_append _ _)
  refine derive?_withRow hs (item?_of_isPrefix hitems' hleftItem)
    (item?_of_isPrefix hitems' hrightItem) ⟨hlt, ?_, rfl⟩
  simp only
  omega

/-- Filling a cell in place adds it with its contents. -/
theorem Complete.fillCell?_eq (hc : c.Complete input.length)
    (hs : s = ⟨c.rows.size + 1, r.cells.size⟩) (hwithin : s.Within input.length)
    (hpos : 0 < c.rows.size) (hwidth : r.cells.size < width)
    (hitems : c.items.toList <+: r.items.toList) :
    fillCell? t (c.withRow width r) s =
      some (c.withRow width (r.addCell s (c.contents t input s))) := by
  have hlength : s.length = c.rows.size + 1 := by rw [hs]
  have hloop := foldlM_eq_some_of_step (f := fun d entry => d.derive? s entry.1 entry.2)
    (l := c.joined t s)
    (fun k => c.withRow width (r.addCell s (grouped ((c.joined t s).take k))))
    fun k entry hentry => by
      rw [List.take_add_one, hentry]
      exact hc.derive?_eq hs hitems (List.mem_of_getElem? hentry) _
  rw [List.take_zero, grouped_nil, withRow_addCell_nil hwidth, List.take_length] at hloop
  rw [fillCell?, hc.joined?_eq hwithin hlength hitems, Option.bind_some,
    contents_of_one_lt (by omega)]
  exact hloop

/-- Filling a row in place adds it. -/
theorem Complete.fillRow?_eq (hc : c.Complete input.length) (hpos : 0 < c.rows.size)
    (hrows : c.rows.size < input.length) (hinput : c.inputLength = input.length) :
    fillRow? t input c (c.rows.size + 1) = some (c.addRow t input) := by
  have hloop := foldlM_eq_some_of_step
    (f := fun d start => fillCell? t d ⟨c.rows.size + 1, start⟩)
    (l := List.range (input.length - c.rows.size))
    (fun k => c.withRow (input.length - c.rows.size) (c.openRow t input k))
    fun k start hstart => by
      obtain ⟨hlt, rfl⟩ := List.getElem?_eq_some_iff.1 hstart
      rw [List.length_range] at hlt
      rw [List.getElem_range, openRow_succ]
      have hcells := size_cells_openRow t input c k
      refine hc.fillCell?_eq (by rw [hcells]) ⟨Nat.succ_pos _, ?_⟩ hpos (hcells.symm ▸ hlt)
        (isPrefix_items_openRow t input c (Nat.zero_le k))
      simp only [Span.stop]
      omega
  have hlast : input.length - (c.rows.size + 1) + 1 = input.length - c.rows.size := by omega
  rw [List.length_range, ← hinput, withRow_openRow] at hloop
  rw [fillRow?, pushRow?_eq (hinput ▸ hrows), Option.bind_some, difference?_of_le hrows,
    Option.bind_some, hlast, ← hinput]
  exact hloop

omit [DecidableEq K] in
private theorem notMem_take {l : List K} (hl : l.Nodup) {i : Nat} {a : K} (hi : l[i]? = some a) :
    a ∉ l.take i := by
  intro hmem
  obtain ⟨j, hj⟩ := List.mem_iff_getElem?.1 hmem
  rw [List.getElem?_take] at hj
  split at hj
  · next hlt =>
    obtain rfl := (List.getElem?_inj (List.getElem?_eq_some_iff.1 hj).1 hl).1 (hj.trans hi.symm)
    exact Nat.lt_irrefl j hlt
  · cases hj

private theorem createTerminals_eq {g : Grammar K V} (hs : s = ⟨c.rows.size + 1, r.cells.size⟩)
    (hlength : s.length = 1) {value : V} (hvalue : input[s.start]? = some value)
    (hwidth : r.cells.size < width) :
    ((RuleTable.ofGrammar g).producing value).foldlM
        (fun d key => (d.getOrCreate? s key).map Prod.fst) (c.withRow width r) =
      some (c.withRow width (r.addCell s (c.contents (.ofGrammar g) input s))) := by
  have hloop := foldlM_eq_some_of_step (f := fun d key => (d.getOrCreate? s key).map Prod.fst)
    (l := (RuleTable.ofGrammar g).producing value)
    (fun k => c.withRow width (r.addCell s
      ((((RuleTable.ofGrammar g).producing value).take k).map fun key => (key, []))))
    fun k key hkey => by
      have hnew := notMem_take (RuleTable.nodup_producing g value) hkey
      rw [getOrCreate?_withRow_of_notMem hs (by simpa [Function.comp_def] using hnew),
        List.take_add_one, hkey]
      simp
  rw [List.take_zero, List.map_nil, withRow_addCell_nil hwidth, List.take_length] at hloop
  rw [contents_of_length_eq_one hlength hvalue]
  exact hloop

/-- Filling the row of single values in place adds it. -/
theorem fillTerminals?_eq (g : Grammar K V) (hinput : input ≠ []) :
    fillTerminals? (.ofGrammar g) input (filled (.ofGrammar g) input 0) =
      some (filled (.ofGrammar g) input 1) := by
  have hloop := foldlM_eq_some_of_step
    (f := fun d entry => ((RuleTable.ofGrammar g).producing entry.1).foldlM
      (fun d key => (d.getOrCreate? ⟨1, entry.2⟩ key).map Prod.fst) d)
    (l := input.zipIdx)
    (fun k => (filled (.ofGrammar g) input 0).withRow input.length
      ((filled (.ofGrammar g) input 0).openRow (.ofGrammar g) input k))
    fun k entry hentry => by
      rw [List.getElem?_zipIdx, Option.map_eq_some_iff] at hentry
      obtain ⟨value, hvalue, rfl⟩ := hentry
      have hcells := size_cells_openRow (.ofGrammar g) input (filled (.ofGrammar g) input 0) k
      have hlt : k < input.length := (List.getElem?_eq_some_iff.1 hvalue).1
      rw [Nat.zero_add, openRow_succ]
      exact createTerminals_eq (by rw [hcells]; rfl) rfl hvalue (hcells.symm ▸ hlt)
  rw [List.length_zipIdx] at hloop
  have hpush := pushRow?_eq (c := filled (.ofGrammar g) input 0) (List.length_pos_iff.2 hinput)
  rw [fillTerminals?, hpush, Option.bind_some]
  exact hloop.trans (congrArg some (withRow_openRow _ _ _))

/-- Filling a chart in place leads to the chart of the input. -/
theorem fillInPlace?_eq (g : Grammar K V) (hinput : input ≠ []) :
    fillInPlace? (.ofGrammar g) input = some (ofInput (.ofGrammar g) input) := by
  have hpos : 0 < input.length := List.length_pos_iff.2 hinput
  have hloop := foldlM_eq_some_of_step (f := fillRow? (.ofGrammar g) input)
    (l := List.range' 2 (input.length - 1)) (fun k => filled (.ofGrammar g) input (k + 1))
    fun k length hlength => by
      obtain ⟨hlt, rfl⟩ := List.getElem?_eq_some_iff.1 hlength
      rw [List.length_range'] at hlt
      have hrows := size_rows_filled (.ofGrammar g) input (k + 1)
      have hcomplete := complete_filled (t := .ofGrammar g) (show k + 1 < input.length by omega)
      have hrow := hcomplete.fillRow?_eq (t := .ofGrammar g) (by omega) (by omega)
        (inputLength_filled (.ofGrammar g) input (k + 1))
      rw [hrows] at hrow
      rw [List.getElem_range', Nat.one_mul, Nat.add_comm 2 k]
      exact hrow
  rw [List.length_range', Nat.sub_add_cancel hpos] at hloop
  rw [fillInPlace?]
  show ((fillTerminals? (.ofGrammar g) input (filled (.ofGrammar g) input 0)).bind _) = _
  rw [fillTerminals?_eq g hinput, Option.bind_some]
  exact hloop

end Filling

end Chart

namespace Parser

variable {K : Type u} {V : Type v} [DecidableEq K] [DecidableEq V]

/-- **A chart is filled within its bounds.** For every input that is not empty the filling in place
succeeds, and it leads to the chart of the input. So no larger number is subtracted from a smaller
one, every row, cell and item that is read or written is there, both parts of a span have cells when
they are looked up, and whenever a joint is recorded its parts are shorter than the span and the
left one ends where the right one starts. -/
theorem chart_in_bounds (g : Grammar K V) {input : List V} (hinput : input ≠ []) :
    ∃ c, (ofGrammar g).chart input = .ok c ∧
      Chart.fillInPlace? (ofGrammar g).table input = some c :=
  ⟨_, chart_of_ne_nil _ hinput, Chart.fillInPlace?_eq g hinput⟩

/-- The chart of `abab` is filled with nine items. -/
theorem chart_in_bounds_pairs :
    ['a', 'b', 'a', 'b'] ≠ [] ∧ ∃ c, (ofGrammar .pairs).chart ['a', 'b', 'a', 'b'] = .ok c ∧
      Chart.fillInPlace? (ofGrammar .pairs).table ['a', 'b', 'a', 'b'] = some c ∧
      c.items.size = 9 := by
  have hinput : ['a', 'b', 'a', 'b'] ≠ [] := List.cons_ne_nil _ _
  obtain ⟨c, hc, hfill⟩ := chart_in_bounds Grammar.pairs hinput
  refine ⟨hinput, c, hc, hfill, ?_⟩
  cases hc
  rfl

end Parser

end ChartParsing
