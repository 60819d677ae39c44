import ChartParsing.Proofs.Chart.Demands
import ChartParsing.Proofs.Chart.Derivations
import ChartParsing.Proofs.Distinct

/-!
# Windows of an input

What a chart holds over the spans of a part of its input is what the chart of that part holds. The
items have other numbers there, so they are compared by their places: items correspond if they are
listed at the same place in the cells of corresponding spans. What two cells are filled with is then
the same, key by key and joint by joint, if the cells of shorter spans agree; and the forests of
corresponding items are equal, since corresponding joints join corresponding items.

## Main definitions

* `Span.shift`: a span further on.
* `Chart.SamePlace`, `Chart.SameJoint`: items in corresponding places, and their joints.
* `Chart.ItemsAgree`: items with the same key, the same divisions and the same forest.

## Main results

* `Chart.forall₂_contents`: what corresponding cells are filled with.
* `Chart.SamePlace.forestAt?_eq`: corresponding items have equal forests.
* `Parser.chart_window`: the chart and the parse of a window.
-/

namespace ChartParsing

universe u v

variable {K : Type u} {V : Type v}

/-! ### Spans of a window -/

namespace Span

/-- The span that lies `n` values further on. -/
def shift (n : Nat) (s : Span) : Span := ⟨s.length, n + s.start⟩

/-- A span of a window is a span of the input. -/
theorem Within.shift {s w : Span} {inputLength : Nat} (hs : s.Within w.length)
    (hw : w.Within inputLength) : (s.shift w.start).Within inputLength := by
  have hstop := hs.stop_le
  have hstop' := hw.stop_le
  rw [stop] at hstop hstop'
  exact ⟨hs.length_pos, by simp only [stop, Span.shift]; omega⟩

private theorem getElem?_values {w : Span} {k : Nat} (h : k < w.length) (input : List V) :
    (w.values input)[k]? = input[w.start + k]? := by
  rw [values, List.getElem?_take_of_lt h, List.getElem?_drop]

end Span

namespace Chart

/-! ### Corresponding items -/

/-- The items `i` of `c` and `j` of `d` are listed at the same place in two cells, of which the
second one is for a span `n` values further on. -/
def SamePlace (c d : Chart K) (n i j : Nat) : Prop :=
  ∃ length start k : Nat, (c.numbersOver length start)[k]? = some i ∧
    (d.numbersOver length (n + start))[k]? = some j

/-- The two joints are of items in the same places. -/
structure SameJoint (c d : Chart K) (n : Nat) (a b : Joint) : Prop where
  /-- The left items are in the same place. -/
  left : c.SamePlace d n a.left b.left
  /-- The right items are in the same place. -/
  right : c.SamePlace d n a.right b.right

variable [DecidableEq K] [DecidableEq V] {t : RuleTable K V} {input : List V} {s w : Span}

/-- Cells with the same keys in the same order list corresponding items. -/
theorem exists_cells_of_keys (hw : w.Within input.length) (hs : s.Within w.length)
    (hkeys : ((ofInput t (w.values input)).contents t (w.values input) s).map Prod.fst =
      ((ofInput t input).contents t input (s.shift w.start)).map Prod.fst) :
    ∃ cell cell', (ofInput t (w.values input)).cell? s.length s.start = some cell ∧
      (ofInput t input).cell? s.length (w.start + s.start) = some cell' ∧
      List.Forall₂
        (SameKey ((ofInput t (w.values input)).SamePlace (ofInput t input) w.start))
        ((ofInput t (w.values input)).keyed cell) ((ofInput t input).keyed cell') := by
  have hinner : s.Within (w.values input).length := by rwa [Span.length_values hw.stop_le]
  have houter := hs.shift hw
  refine ⟨_, _, cell?_ofInput hinner, cell?_ofInput houter, ?_⟩
  rw [keyed_eq (agrees_of_cell?_ofInput (cell?_ofInput hinner)),
    keyed_eq (agrees_of_cell?_ofInput (cell?_ofInput houter)), Cell.numbered, Cell.numbered,
    ← hkeys]
  refine forall₂_zipIdx _ _ _ fun k hk => ⟨s.length, s.start, k, ?_, ?_⟩
  · rw [List.length_map] at hk
    rw [numbersOver_ofInput hinner, List.getElem?_range' hk, Nat.one_mul]
  · rw [hkeys, List.length_map] at hk
    refine (congrArg (·[k]?) (numbersOver_ofInput houter)).trans ?_
    rw [List.getElem?_range' hk, Nat.one_mul]

/-! ### What corresponding cells are filled with -/

omit [DecidableEq V] in
private theorem forall₂_joinedIn {c d : Chart K} {n : Nat} {left right left' right' : Cell K}
    (hleft : List.Forall₂ (SameKey (c.SamePlace d n)) (c.keyed left) (d.keyed left'))
    (hright : List.Forall₂ (SameKey (c.SamePlace d n)) (c.keyed right) (d.keyed right')) :
    List.Forall₂ (SameKey (c.SameJoint d n)) (joinedIn t c left right)
      (joinedIn t d left' right') := by
  rw [joinedIn_eq, joinedIn_eq]
  refine List.rel_flatMap hleft fun l l' hl => List.rel_flatMap hright fun r r' hr => ?_
  rw [← hl.1, ← hr.1, List.forall₂_map_left_iff, List.forall₂_map_right_iff]
  exact List.forall₂_same.2 fun key _ => ⟨rfl, hl.2, hr.2⟩

/-- What is joined over a span, if the cells of shorter spans list the same keys. -/
theorem forall₂_joined (hw : w.Within input.length) (hs : s.Within w.length)
    (hkeys : ∀ s' : Span, s'.Within w.length → s'.length < s.length →
      ((ofInput t (w.values input)).contents t (w.values input) s').map Prod.fst =
        ((ofInput t input).contents t input (s'.shift w.start)).map Prod.fst) :
    List.Forall₂
      (SameKey ((ofInput t (w.values input)).SameJoint (ofInput t input) w.start))
      ((ofInput t (w.values input)).joined t s)
      ((ofInput t input).joined t (s.shift w.start)) := by
  have hlengths : List.Forall₂ (fun n n' => n = n' ∧ 0 < n ∧ n < s.length)
      (List.range' 1 (s.length - 1)) (List.range' 1 (s.length - 1)) :=
    List.forall₂_same.2 fun n hn => by
      rw [List.mem_range'_1] at hn
      omega
  refine List.rel_flatMap hlengths ?_
  rintro n _ ⟨rfl, hpos, hlt⟩
  have hleft := hs.leftPart hpos hlt
  have hright := hs.rightPart hlt
  obtain ⟨left, left', hl, hl', hlefts⟩ := exists_cells_of_keys hw hleft (hkeys _ hleft hlt)
  obtain ⟨right, right', hr, hr', hrights⟩ :=
    exists_cells_of_keys hw hright (hkeys _ hright (Nat.sub_lt hs.length_pos hpos))
  simp only [Span.shift, Nat.add_assoc, hl, hl', hr, hr']
  exact forall₂_joinedIn hlefts hrights

/-- Cells of corresponding spans are filled with the same keys in the same order, and with joints of
corresponding items. -/
theorem forall₂_contents (hw : w.Within input.length) (hs : s.Within w.length) :
    List.Forall₂
      (SameKey (List.Forall₂
        ((ofInput t (w.values input)).SameJoint (ofInput t input) w.start)))
      ((ofInput t (w.values input)).contents t (w.values input) s)
      ((ofInput t input).contents t input (s.shift w.start)) := by
  induction hlength : s.length using Nat.strongRecOn generalizing s with
  | ind length ih =>
    subst hlength
    rcases Nat.eq_or_lt_of_le hs.length_pos with hone | hone
    · have hstop := hs.stop_le
      have hstop' := hw.stop_le
      rw [Span.stop] at hstop hstop'
      have hvalue := List.getElem?_eq_getElem (show w.start + s.start < input.length by omega)
      have hwindow := (Span.getElem?_values (show s.start < w.length by omega) input).trans hvalue
      have hshift : (s.shift w.start).length = 1 := hone.symm
      rw [contents_of_length_eq_one hone.symm hwindow, contents_of_length_eq_one hshift hvalue,
        List.forall₂_map_left_iff, List.forall₂_map_right_iff]
      exact List.forall₂_same.2 fun key _ => ⟨rfl, .nil⟩
    · have hshift : 1 < (s.shift w.start).length := hone
      rw [contents_of_one_lt hone, contents_of_one_lt hshift]
      exact forall₂_grouped (forall₂_joined hw hs fun s' hs' hlt =>
        map_fst_eq_of_forall₂ (ih s'.length hlt hs' rfl))

/-- The cells of corresponding spans list the same keys in the same order, for corresponding
items. -/
theorem exists_cells (hw : w.Within input.length) (hs : s.Within w.length) :
    ∃ cell cell', (ofInput t (w.values input)).cell? s.length s.start = some cell ∧
      (ofInput t input).cell? s.length (w.start + s.start) = some cell' ∧
      List.Forall₂
        (SameKey ((ofInput t (w.values input)).SamePlace (ofInput t input) w.start))
        ((ofInput t (w.values input)).keyed cell) ((ofInput t input).keyed cell') :=
  exists_cells_of_keys hw hs (map_fst_eq_of_forall₂ (forall₂_contents hw hs))

/-- Corresponding items have the same key and span lengths, and joints of corresponding items. -/
theorem SamePlace.exists_items (hw : w.Within input.length) {i j : Nat}
    (h : (ofInput t (w.values input)).SamePlace (ofInput t input) w.start i j) :
    ∃ item item', (ofInput t (w.values input)).item? i = some item ∧
      (ofInput t input).item? j = some item' ∧ item.key = item'.key ∧
      item.span.length = item'.span.length ∧
      List.Forall₂ ((ofInput t (w.values input)).SameJoint (ofInput t input) w.start)
        item.joints item'.joints := by
  obtain ⟨length, start, k, hi, hj⟩ := h
  obtain ⟨hs, key, joints, hentry, hitem⟩ := exists_item_of_getElem?_numbersOver hi
  obtain ⟨-, key', joints', hentry', hitem'⟩ := exists_item_of_getElem?_numbersOver hj
  rw [Span.length_values hw.stop_le] at hs
  have hsame := rel_of_getElem? (forall₂_contents hw hs) hentry hentry'
  exact ⟨_, _, hitem, hitem', hsame.1, rfl, hsame.2⟩

/-! ### Forests of corresponding items -/

/-- The joints `a` of `c` and `b` of `d` divide a span after as many values and are for the same
keys. -/
def JointsAgree (c d : Chart K) (a b : Joint) : Prop :=
  ∃ l r l' r', c.item? a.left = some l ∧ c.item? a.right = some r ∧ d.item? b.left = some l' ∧
    d.item? b.right = some r' ∧ l.span.length = l'.span.length ∧ l.key = l'.key ∧ r.key = r'.key

/-- The items `i` of `c` and `j` of `d` have the same key, joints that agree one by one, and equal
forests. -/
def ItemsAgree (c d : Chart K) (i j : Nat) : Prop :=
  ∃ item item', c.item? i = some item ∧ d.item? j = some item' ∧ item.key = item'.key ∧
    List.Forall₂ (c.JointsAgree d) item.joints item'.joints ∧ ∃ f, c.Gives i f ∧ d.Gives j f

private theorem SameJoint.jointsAgree (hw : w.Within input.length) {a b : Joint}
    (h : (ofInput t (w.values input)).SameJoint (ofInput t input) w.start a b) :
    (ofInput t (w.values input)).JointsAgree (ofInput t input) a b := by
  obtain ⟨l, l', hl, hl', hlkey, hlength, -⟩ := h.left.exists_items hw
  obtain ⟨r, r', hr, hr', hrkey, -, -⟩ := h.right.exists_items hw
  exact ⟨l, r, l', r', hl, hr, hl', hr', hlength, hlkey, hrkey⟩

section Grammar

variable {g : Grammar K V}

/-- Corresponding items have equal forests. -/
theorem SamePlace.forestAt?_eq (hw : w.Within input.length) {i j : Nat}
    (h : (ofInput (.ofGrammar g) (w.values input)).SamePlace (ofInput (.ofGrammar g) input)
      w.start i j) :
    (ofInput (.ofGrammar g) (w.values input)).graph.forestAt? i =
      (ofInput (.ofGrammar g) input).graph.forestAt? j := by
  have hc := partsBelow_ofInput g (w.values input)
  have hd := partsBelow_ofInput g input
  induction i using Nat.strongRecOn generalizing j with
  | ind i ih =>
    obtain ⟨item, item', hitem, hitem', hkey, -, hjoints⟩ := h.exists_items hw
    by_cases hempty : item.joints = []
    · rw [hempty, List.forall₂_nil_left_iff] at hjoints
      rw [hc.forestAt?_graph_of_terminal hitem hempty,
        hd.forestAt?_graph_of_terminal hitem' hjoints, hkey]
    · have hne : item'.joints ≠ [] := fun hempty' =>
        hempty (by rwa [hempty', List.forall₂_nil_right_iff] at hjoints)
      -- The joints are of corresponding items, and those of `i` have smaller numbers than `i`.
      have hbelow : ∀ joint ∈ item.joints, joint.left < i ∧ joint.right < i := by
        intro joint hjoint
        have hparts := parts_eq_children hitem
        exact ⟨hc i _ (hparts ▸ Item.left_mem_children hjoint),
          hc i _ (hparts ▸ Item.right_mem_children hjoint)⟩
      have halternatives :
          item.joints.map (ofInput (.ofGrammar g) (w.values input)).alternativeOf =
            item'.joints.map (ofInput (.ofGrammar g) input).alternativeOf := by
        rw [← List.forall₂_eq_eq_eq, List.forall₂_map_left_iff, List.forall₂_map_right_iff]
        refine ((List.forall₂_and_left _ _).2 ⟨hbelow, hjoints⟩).imp ?_
        rintro a b ⟨⟨hleft, hright⟩, hab⟩
        simp only [alternativeOf, List.filterMap_cons, List.filterMap_nil, ih _ hleft hab.left,
          ih _ hright hab.right]
      rw [hc.forestAt?_graph_of_joints hitem hempty, hd.forestAt?_graph_of_joints hitem' hne, hkey,
        halternatives]

/-- Demands for corresponding items give one forest. -/
theorem SamePlace.exists_gives (hw : w.Within input.length) {i j : Nat}
    (h : (ofInput (.ofGrammar g) (w.values input)).SamePlace (ofInput (.ofGrammar g) input)
      w.start i j) :
    ∃ f, (ofInput (.ofGrammar g) (w.values input)).graph.forestAt? i = some f ∧
      (ofInput (.ofGrammar g) (w.values input)).Gives i f ∧
      (ofInput (.ofGrammar g) input).Gives j f := by
  have hc := partsBelow_ofInput g (w.values input)
  obtain ⟨item, _, hitem, -⟩ := h.exists_items hw
  have hf := hc.forestAt?_graph hitem
  exact ⟨_, hf, hc.gives hf,
    (partsBelow_ofInput g input).gives ((h.forestAt?_eq hw).symm.trans hf)⟩

private theorem SamePlace.itemsAgree (hw : w.Within input.length) {i j : Nat}
    (h : (ofInput (.ofGrammar g) (w.values input)).SamePlace (ofInput (.ofGrammar g) input)
      w.start i j) :
    (ofInput (.ofGrammar g) (w.values input)).ItemsAgree (ofInput (.ofGrammar g) input) i j := by
  obtain ⟨item, item', hitem, hitem', hkey, -, hjoints⟩ := h.exists_items hw
  obtain ⟨f, -, hf, hf'⟩ := h.exists_gives hw
  exact ⟨item, item', hitem, hitem', hkey, hjoints.imp fun _ _ hab => hab.jointsAgree hw,
    f, hf, hf'⟩

end Grammar

end Chart

/-! ### The parse of a window -/

namespace Parser

variable [DecidableEq K] [DecidableEq V]

/-- **A chart is local.** Let `w` be a span of an input, and take the chart of the values over it.
Its cells list as many items as the cells `w.start` values further on in the chart of the input, and
those in the same places agree: they have the same key and joints for the same keys after as many
values, in the same order, and a demand gives the same forest, whatever has been demanded before. So
the parse of the window consists of the forests that the items of start keys over `w` give, in
order. -/
theorem chart_window (g : Grammar K V) {input : List V} {w : Span} (hw : w.Within input.length) :
    ∃ c d fs, (ofGrammar g).chart (w.values input) = .ok c ∧ (ofGrammar g).chart input = .ok d ∧
      (ofGrammar g).parse (w.values input) = .ok fs ∧
      (∀ length start, 1 ≤ length → length ≤ w.length → start ≤ w.length - length →
        ∃ cell cell', c.cell? length start = some cell ∧
          d.cell? length (w.start + start) = some cell' ∧
          List.Forall₂ (c.ItemsAgree d) cell.numbers cell'.numbers) ∧
      ∃ cell, d.cell? w.length w.start = some cell ∧
        List.Forall₂ (fun f i => d.Gives i f) fs.toForests
          (((d.keyed cell).filter fun entry => g.isStart entry.1).map Prod.snd) := by
  have hlength : (w.values input).length = w.length := Span.length_values hw.stop_le
  have hwindow : w.values input ≠ [] := List.ne_nil_of_length_pos (hlength ▸ hw.length_pos)
  have hinput : input ≠ [] := List.ne_nil_of_length_pos
    (Nat.lt_of_lt_of_le hw.length_pos (Nat.le_trans (Nat.le_add_left ..) hw.stop_le))
  refine ⟨_, _, _, chart_of_ne_nil _ hwindow, chart_of_ne_nil _ hinput, parse_of_ne_nil g hwindow,
    fun length start hpos hle hstart => ?_, ?_⟩
  · have hs : Span.Within ⟨length, start⟩ w.length := ⟨hpos, by simp only [Span.stop]; omega⟩
    obtain ⟨cell, cell', hcell, hcell', hentries⟩ := Chart.exists_cells (t := .ofGrammar g) hw hs
    refine ⟨cell, cell', hcell, hcell', ?_⟩
    rw [← Chart.map_snd_keyed (Chart.agrees_of_cell?_ofInput hcell),
      ← Chart.map_snd_keyed (Chart.agrees_of_cell?_ofInput hcell'), List.forall₂_map_left_iff,
      List.forall₂_map_right_iff]
    exact hentries.imp fun _ _ hab => hab.2.itemsAgree hw
  · have hs : Span.Within ⟨w.length, 0⟩ w.length := ⟨hw.length_pos, by simp [Span.stop]⟩
    obtain ⟨cell, cell', hcell, hcell', hentries⟩ := Chart.exists_cells (t := .ofGrammar g) hw hs
    refine ⟨cell', hcell', ?_⟩
    have hstarts := List.rel_filter (p := fun entry : K × Nat => g.isStart entry.1)
      (q := fun entry => g.isStart entry.1)
      (fun _ _ he => iff_of_eq (congrArg (fun key => g.isStart key = true) he.1)) hentries
    rw [toForests_forests, roots, root?_eq, hlength, hcell, List.filterMap_map,
      ← List.filterMap_eq_map]
    refine forall₂_filterMap (hstarts.imp fun e e' he => ?_)
    obtain ⟨f, hf, -, hgives⟩ := he.2.exists_gives hw
    exact ⟨f, e'.2, hf, rfl, hgives⟩

/-- In `babab` the last four values are a window. The item for all of it has another number there
and the same forest, the only one of the parse of `abab`. -/
theorem chart_window_pairs :
    Span.Within ⟨4, 1⟩ ['b', 'a', 'b', 'a', 'b'].length ∧
      ∃ c d fs, (ofGrammar .pairs).chart ['a', 'b', 'a', 'b'] = .ok c ∧
        (ofGrammar .pairs).chart ['b', 'a', 'b', 'a', 'b'] = .ok d ∧
        (ofGrammar .pairs).parse ['a', 'b', 'a', 'b'] = .ok fs ∧
        (1 ≤ 4 ∧ 4 ≤ 4 ∧ 0 ≤ 4 - 4) ∧ c.ItemsAgree d 8 12 ∧
        ∃ f, fs.toForests = [f] ∧ d.Gives 12 f := by
  have hw : Span.Within ⟨4, 1⟩ ['b', 'a', 'b', 'a', 'b'].length := ⟨by decide, by decide⟩
  have hbounds : 1 ≤ 4 ∧ 4 ≤ 4 ∧ 0 ≤ 4 - 4 := by decide
  obtain ⟨c, d, fs, hc, hd, hfs, hcells, cell, hcell, hforests⟩ := chart_window Grammar.pairs hw
  obtain ⟨_, _, hinner, houter, hitems⟩ := hcells 4 0 hbounds.1 hbounds.2.1 hbounds.2.2
  have hcell8 : c.cell? 4 0 = some ⟨[8], [('S', 8)]⟩ := by
    cases hc
    rfl
  have hcell12 : d.cell? 4 1 = some ⟨[12], [('S', 12)]⟩ ∧
      d.keyed ⟨[12], [('S', 12)]⟩ = [('S', 12)] := by
    cases hd
    exact ⟨rfl, rfl⟩
  cases hinner.symm.trans hcell8
  cases houter.symm.trans hcell12.1
  cases hcell.symm.trans hcell12.1
  rw [hcell12.2] at hforests
  obtain ⟨f, _, hgives, hnil, hf⟩ := List.forall₂_cons_right_iff.1 hforests
  cases hnil
  exact ⟨hw, c, d, fs, hc, hd, hfs, hbounds, (List.forall₂_cons.1 hitems).1, f, hf, hgives⟩

end Parser

end ChartParsing
