import ChartParsing.Proofs.Chart.Building
import ChartParsing.Proofs.Chart.Membership

/-!
# The joints of an item

A joint is recorded once for each key that joins its two items: the joints of an item come in
strictly increasing order, by the left item and then by the right one. Both items stand over shorter
spans than the item itself, so they have smaller numbers, and the chart is a table without cycles.

## Main definitions

* `Joint.Precedes`: the order of joints.

## Main results

* `Chart.Lists.pairwise_joints`: the joints of an item are increasing.
* `Chart.Lists.mem_joints`: the joints of an item, from the rules and the entries of its parts.
* `Chart.partsBelow_ofInput`: the parts of an item have smaller numbers.
* `Parser.chart_records_divisions`: the joints of an item are all ways to divide its span.
-/

namespace ChartParsing

universe u v

variable {K : Type u} {V : Type v}

/-- A joint precedes another if its left item does, or if the left items are equal and its right
item does. -/
def Joint.Precedes (a b : Joint) : Prop :=
  a.left < b.left ∨ a.left = b.left ∧ a.right < b.right

theorem Joint.Precedes.ne {a b : Joint} (h : a.Precedes b) : a ≠ b := by
  rintro rfl
  rcases h with hlt | ⟨-, hlt⟩
  · exact Nat.lt_irrefl _ hlt
  · exact Nat.lt_irrefl _ hlt

namespace Chart

variable [DecidableEq K] [DecidableEq V]

/-! ### The order of joining -/

section Order

variable {t : RuleTable K V} {input : List V}

theorem pairwise_keyed {length start : Nat} {cell : Cell K}
    (hcell : (ofInput t input).cell? length start = some cell) :
    ((ofInput t input).keyed cell).Pairwise fun a b => a.2 < b.2 := by
  have hs : Span.Within ⟨length, start⟩ input.length := within_of_cell?_ofInput hcell
  rw [keyed_eq (agrees_of_cell?_ofInput hcell)]
  cases hcell.symm.trans (cell?_ofInput hs)
  rw [Cell.numbered, ← List.pairwise_map (f := Prod.snd) (R := (· < ·)), List.zipIdx_map_snd]
  exact List.pairwise_lt_range'

end Order

variable {g : Grammar K V} {input : List V}

private theorem pairwise_joinedIn {c : Chart K} {left right : Cell K}
    (hleft : (c.keyed left).Pairwise fun a b => a.2 < b.2)
    (hright : (c.keyed right).Pairwise fun a b => a.2 < b.2) :
    (joinedIn (.ofGrammar g) c left right).Pairwise fun a b => a.1 = b.1 → a.2.Precedes b.2 := by
  rw [joinedIn_eq, List.pairwise_flatMap]
  refine ⟨fun l _ => ?_, hleft.imp fun hlt a ha b hb _ => ?_⟩
  · rw [List.pairwise_flatMap]
    refine ⟨fun r _ => ?_, hright.imp fun hlt a ha b hb _ => ?_⟩
    · -- One pair of items is joined under different keys.
      rw [List.pairwise_map]
      exact (RuleTable.nodup_joining g l.1 r.1).imp fun hne heq => absurd heq hne
    · obtain ⟨_, -, rfl⟩ := List.mem_map.1 ha
      obtain ⟨_, -, rfl⟩ := List.mem_map.1 hb
      exact .inr ⟨rfl, hlt⟩
  · simp only [List.mem_flatMap, List.mem_map] at ha hb
    obtain ⟨_, -, _, -, rfl⟩ := ha
    obtain ⟨_, -, _, -, rfl⟩ := hb
    exact .inl hlt

/-- Over a span equal keys come with increasing joints. -/
theorem pairwise_joined (g : Grammar K V) (input : List V) (s : Span) :
    ((ofInput (.ofGrammar g) input).joined (.ofGrammar g) s).Pairwise
      fun a b => a.1 = b.1 → a.2.Precedes b.2 := by
  rw [joined, List.pairwise_flatMap]
  refine ⟨fun n _ => ?_, List.Pairwise.imp ?_ (List.pairwise_lt_range' ..)⟩
  · split
    · next left right hleft hright =>
      exact pairwise_joinedIn (pairwise_keyed hleft) (pairwise_keyed hright)
    · exact .nil
  · -- A left item over a shorter part has a smaller number.
    rintro n n' hlt ⟨_, a⟩ ha ⟨_, b⟩ hb -
    split at ha
    · next left right hleft hright =>
      split at hb
      · next left' right' hleft' hright' =>
        obtain ⟨key, _, hl, -, -⟩ := (mem_joinedIn (agrees_of_cell?_ofInput hleft)
          (agrees_of_cell?_ofInput hright)).1 ha
        obtain ⟨key', _, hl', -, -⟩ := (mem_joinedIn (agrees_of_cell?_ofInput hleft')
          (agrees_of_cell?_ofInput hright')).1 hb
        have hlists : (ofInput (.ofGrammar g) input).Lists ⟨n, s.start⟩ key a.left :=
          ⟨left, hleft, hl⟩
        have hlists' : (ofInput (.ofGrammar g) input).Lists ⟨n', s.start⟩ key' b.left :=
          ⟨left', hleft', hl'⟩
        exact .inl (hlists.number_lt hlists' (.inl hlt))
      · cases hb
    · cases ha

/-! ### Joints of items -/

/-- The joints of an item are increasing. -/
theorem Lists.pairwise_joints {s : Span} {key : K} {number : Nat} {item : Item K}
    (h : (ofInput (.ofGrammar g) input).Lists s key number)
    (hitem : (ofInput (.ofGrammar g) input).item? number = some item) :
    item.joints.Pairwise Joint.Precedes := by
  rcases Nat.eq_or_lt_of_le h.within.length_pos with hone | hone
  · cases hitem.symm.trans (h.item?_of_length_eq_one hone.symm)
    exact .nil
  · cases hitem.symm.trans (h.item?_of_one_lt hone)
    rw [valuesAt, List.pairwise_filterMap]
    refine (pairwise_joined g input s).imp fun hprecedes j hj k hk => ?_
    split at hj
    · next hkey =>
      split at hk
      · next hkey' =>
        cases hj
        cases hk
        exact hprecedes (hkey.trans hkey'.symm)
      · cases hk
    · cases hj

/-- The joints of an item have one rule each, for keys that are listed for the two parts of its
span, divided somewhere. -/
theorem Lists.mem_joints {s : Span} {key : K} {number : Nat} {item : Item K}
    (h : (ofInput (.ofGrammar g) input).Lists s key number)
    (hitem : (ofInput (.ofGrammar g) input).item? number = some item) {joint : Joint} :
    joint ∈ item.joints ↔ ∃ n, 0 < n ∧ n < s.length ∧ ∃ rule ∈ g.binaries, rule.key = key ∧
      (ofInput (.ofGrammar g) input).Lists ⟨n, s.start⟩ rule.left joint.left ∧
      (ofInput (.ofGrammar g) input).Lists ⟨s.length - n, s.start + n⟩ rule.right joint.right := by
  rcases Nat.eq_or_lt_of_le h.within.length_pos with hone | hone
  · cases hitem.symm.trans (h.item?_of_length_eq_one hone.symm)
    refine ⟨nofun, fun ⟨n, hpos, hlt, _⟩ => absurd hpos ?_⟩
    omega
  · cases hitem.symm.trans (h.item?_of_one_lt hone)
    simp only [mem_valuesAt, mem_joined (agrees_ofInput _ input), RuleTable.mem_joining]
    refine exists_congr fun n => and_congr_right fun _ => and_congr_right fun _ => ?_
    constructor
    · rintro ⟨_, _, hl, hr, rule, hrule, rfl, rfl, rfl⟩
      exact ⟨rule, hrule, rfl, hl, hr⟩
    · rintro ⟨rule, hrule, rfl, hl, hr⟩
      exact ⟨_, _, hl, hr, rule, hrule, rfl, rfl, rfl⟩

theorem Lists.nodup_joints {s : Span} {key : K} {number : Nat} {item : Item K}
    (h : (ofInput (.ofGrammar g) input).Lists s key number)
    (hitem : (ofInput (.ofGrammar g) input).item? number = some item) : item.joints.Nodup :=
  (h.pairwise_joints hitem).imp Joint.Precedes.ne

/-- The items over one input value are those without joints. -/
theorem Lists.joints_eq_nil_iff {s : Span} {key : K} {number : Nat} {item : Item K}
    (h : (ofInput (.ofGrammar g) input).Lists s key number)
    (hitem : (ofInput (.ofGrammar g) input).item? number = some item) :
    item.joints = [] ↔ s.length = 1 := by
  rcases Nat.eq_or_lt_of_le h.within.length_pos with hone | hone
  · cases hitem.symm.trans (h.item?_of_length_eq_one hone.symm)
    exact iff_of_true rfl hone.symm
  · have hkey := (exists_lists_iff h.within).1 ⟨number, h⟩
    rw [contents_of_one_lt hone, map_fst_grouped, mem_distinct] at hkey
    obtain ⟨⟨_, joint⟩, hjoint, rfl⟩ := List.mem_map.1 hkey
    cases hitem.symm.trans (h.item?_of_one_lt hone)
    exact iff_of_false (List.ne_nil_of_mem (mem_valuesAt.2 hjoint)) (Nat.ne_of_gt hone)

/-- The parts of an item have smaller numbers. -/
theorem partsBelow_ofInput (g : Grammar K V) (input : List V) :
    (ofInput (.ofGrammar g) input).PartsBelow := by
  intro i j hj
  cases hitem : (ofInput (.ofGrammar g) input).item? i with
  | none => simp [parts, hitem] at hj
  | some item =>
    have hlisted := lists_of_item? hitem
    rw [parts_eq_children hitem, item.children_node, List.mem_flatMap] at hj
    obtain ⟨joint, hjoint, hpart⟩ := hj
    obtain ⟨n, hpos, hlt, rule, -, -, hl, hr⟩ := (hlisted.mem_joints hitem).1 hjoint
    rcases List.mem_pair.1 hpart with rfl | rfl
    · exact hl.number_lt hlisted (.inl hlt)
    · exact hr.number_lt hlisted (.inl (Nat.sub_lt hlisted.within.length_pos hpos))

/-- An entry is a number over a span, of an item with the key of the entry. -/
theorem lists_iff_mem_numbersOver {s : Span} {key : K} {number : Nat} :
    (ofInput (.ofGrammar g) input).Lists s key number ↔
      number ∈ (ofInput (.ofGrammar g) input).numbersOver s.length s.start ∧
        ∃ item, (ofInput (.ofGrammar g) input).item? number = some item ∧ item.key = key := by
  constructor
  · intro h
    obtain ⟨joints, hitem, -⟩ := h.exists_item
    obtain ⟨cell, hcell, hmem⟩ := h
    refine ⟨?_, _, hitem, rfl⟩
    rw [numbersOver, hcell, Option.map_some, Option.getD_some,
      (agrees_of_cell?_ofInput hcell).numbers_eq]
    exact List.mem_map_of_mem hmem
  · rintro ⟨hnumber, item, hitem, rfl⟩
    rw [numbersOver] at hnumber
    cases hcell : (ofInput (.ofGrammar g) input).cell? s.length s.start with
    | none => simp [hcell] at hnumber
    | some cell =>
      rw [hcell, Option.map_some, Option.getD_some, (agrees_of_cell?_ofInput hcell).numbers_eq]
        at hnumber
      obtain ⟨⟨key, _⟩, hmem, rfl⟩ := List.mem_map.1 hnumber
      have hlists : (ofInput (.ofGrammar g) input).Lists s key _ := ⟨cell, hcell, hmem⟩
      obtain ⟨rfl, rfl⟩ := hlists.eq_of_number (lists_of_item? hitem)
      exact hlists

private theorem length_le_of_number_le {i j : Nat} {item other : Item K}
    (hitem : (ofInput (.ofGrammar g) input).item? i = some item)
    (hother : (ofInput (.ofGrammar g) input).item? j = some other) (h : i ≤ j) :
    item.span.length ≤ other.span.length := by
  by_contra hlt
  have hnumber := (lists_of_item? hother).number_lt (lists_of_item? hitem)
    (.inl (Nat.lt_of_not_le hlt))
  exact Nat.not_lt.2 h hnumber

theorem Lists.pairwise_length_left {s : Span} {key : K} {number : Nat} {item : Item K}
    (h : (ofInput (.ofGrammar g) input).Lists s key number)
    (hitem : (ofInput (.ofGrammar g) input).item? number = some item) :
    item.joints.Pairwise fun a b => ∀ l l', (ofInput (.ofGrammar g) input).item? a.left = some l →
      (ofInput (.ofGrammar g) input).item? b.left = some l' → l.span.length ≤ l'.span.length := by
  refine (h.pairwise_joints hitem).imp fun {a b} hprecedes l l' hl hl' => ?_
  refine length_le_of_number_le hl hl' ?_
  rcases hprecedes with hlt | ⟨heq, -⟩
  · exact Nat.le_of_lt hlt
  · exact Nat.le_of_eq heq

end Chart

namespace Parser

variable [DecidableEq K] [DecidableEq V]

/-- **An item records every way to put it together, once and in order.** The joints of an item in
the chart of an input are the pairs of items over two parts of its span, divided anywhere, for whose
keys there is a rule. They are strictly increasing, by the left item and then by the right one, so
none is repeated and shorter left parts come first. Only an item over a single value has none. -/
theorem chart_records_divisions (g : Grammar K V) {input : List V} (hinput : input ≠ []) :
    ∃ c, (ofGrammar g).chart input = .ok c ∧ ∀ number item, c.item? number = some item →
      (∀ joint : Joint, joint ∈ item.joints ↔ ∃ n l r, 1 ≤ n ∧ n < item.span.length ∧
        joint.left ∈ c.numbersOver n item.span.start ∧ c.item? joint.left = some l ∧
        joint.right ∈ c.numbersOver (item.span.length - n) (item.span.start + n) ∧
        c.item? joint.right = some r ∧
        ∃ rule ∈ g.binaries, rule.key = item.key ∧ rule.left = l.key ∧ rule.right = r.key) ∧
      item.joints.Pairwise Joint.Precedes ∧ item.joints.Nodup ∧
      (item.joints.Pairwise fun a b => ∀ l l', c.item? a.left = some l →
        c.item? b.left = some l' → l.span.length ≤ l'.span.length) ∧
      (item.joints = [] ↔ item.span.length = 1) := by
  refine ⟨_, chart_of_ne_nil _ hinput, fun number item hitem => ?_⟩
  have hlists := Chart.lists_of_item? hitem
  refine ⟨fun joint => ?_, hlists.pairwise_joints hitem, hlists.nodup_joints hitem,
    hlists.pairwise_length_left hitem, hlists.joints_eq_nil_iff hitem⟩
  rw [hlists.mem_joints hitem]
  simp only [Chart.lists_iff_mem_numbersOver]
  constructor
  · rintro ⟨n, hpos, hlt, rule, hrule, hkey, ⟨hl, l, hlitem, hlkey⟩, hr, r, hritem, hrkey⟩
    exact ⟨n, l, r, hpos, hlt, hl, hlitem, hr, hritem, rule, hrule, hkey, hlkey.symm, hrkey.symm⟩
  · rintro ⟨n, l, r, hpos, hlt, hl, hlitem, hr, hritem, rule, hrule, hkey, hlkey, hrkey⟩
    exact ⟨n, hpos, hlt, rule, hrule, hkey, ⟨hl, l, hlitem, hlkey.symm⟩, hr, r, hritem,
      hrkey.symm⟩

/-- In `abab` the item for the whole input has two joints: of `a` and `bab`, and of the two
halves. -/
theorem chart_records_divisions_pairs :
    ['a', 'b', 'a', 'b'] ≠ [] ∧ ∃ c, (ofGrammar .pairs).chart ['a', 'b', 'a', 'b'] = .ok c ∧
      c.item? 8 = some ⟨'S', ⟨4, 0⟩, [⟨0, 7⟩, ⟨4, 6⟩]⟩ ∧
      (∀ joint : Joint, joint ∈ [⟨0, 7⟩, ⟨4, 6⟩] ↔ ∃ n l r, 1 ≤ n ∧ n < 4 ∧
        joint.left ∈ c.numbersOver n 0 ∧ c.item? joint.left = some l ∧
        joint.right ∈ c.numbersOver (4 - n) (0 + n) ∧ c.item? joint.right = some r ∧
        ∃ rule ∈ Grammar.pairs.binaries,
          rule.key = 'S' ∧ rule.left = l.key ∧ rule.right = r.key) ∧
      [⟨0, 7⟩, ⟨4, 6⟩].Pairwise Joint.Precedes := by
  have hinput : ['a', 'b', 'a', 'b'] ≠ [] := List.cons_ne_nil _ _
  obtain ⟨c, hc, hitems⟩ := chart_records_divisions Grammar.pairs hinput
  have hitem : c.item? 8 = some ⟨'S', ⟨4, 0⟩, [⟨0, 7⟩, ⟨4, 6⟩]⟩ := by
    cases hc
    rfl
  obtain ⟨hjoints, hprecedes, -⟩ := hitems 8 _ hitem
  exact ⟨hinput, c, hc, hitem, hjoints, hprecedes⟩

end Parser

end ChartParsing
