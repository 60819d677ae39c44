import ChartParsing.Proofs.Grammar.RuleLookup
import ChartParsing.Splice.Table
import Mathlib.Data.List.Induction
import Mathlib.Data.Nat.Find

/-!
# Conflicts found in one pass

Each pair is compared with the first one of its key only. That finds every key that comes with two
different things: of two things that differ, one is not the first. A key is noted as soon as it
comes with something else, so the conflicts are in the order of the places where they first show.

The findings are followed along the list, one pair after another. What has been found before is also
found with another pair at the end, since a lookup meets the first pair of a key.

## Main definitions

* `ContradictsAt`, `FirstContradiction`: a place where a key comes with something else, and the
  first such place.
* `ListsConflicts`: the keys that come with two different things, in order.

## Main results

* `Findings.lookup_first`: what keys have come with first is looked up as in the pairs.
* `first_ofPairs_eq_distinct`: without conflicts the pairs are kept, repeats dropped.
* `mem_conflicts_iff`: the conflicts are the keys that come with two different things.
* `listsConflicts_conflicts`: each is noted once, in the order of the first contradictions.
-/

namespace ChartParsing

universe u v

variable {K : Type u} {T : Type v} [DecidableEq K]

/-! ### Contradictions -/

/-- At a place of the list a key comes with something else than it comes with first. -/
def ContradictsAt (pairs : List (K × T)) (key : K) (n : Nat) : Prop :=
  ∃ item, pairs[n]? = some (key, item) ∧ pairs.lookup key ≠ some item

/-- The place where a key comes with something else for the first time. -/
structure FirstContradiction (pairs : List (K × T)) (key : K) (n : Nat) : Prop where
  /-- The key comes with something else there. -/
  contradictsAt : ContradictsAt pairs key n
  /-- It does not do so before. -/
  not_before : ∀ m < n, ¬ContradictsAt pairs key m

/-- The keys are those that come with two different things, each once, in the order of the places
where that shows. -/
structure ListsConflicts (pairs : List (K × T)) (keys : List K) : Prop where
  /-- No key is listed twice. -/
  nodup : keys.Nodup
  /-- The listed keys are those that come with two different things. -/
  mem_iff : ∀ key, key ∈ keys ↔ ∃ a b, (key, a) ∈ pairs ∧ (key, b) ∈ pairs ∧ a ≠ b
  /-- A key that is contradicted earlier is listed earlier. -/
  ordered : keys.Pairwise fun key key' => ∃ n n',
    FirstContradiction pairs key n ∧ FirstContradiction pairs key' n' ∧ n < n'

variable {pairs : List (K × T)} {pair : K × T} {key : K} {n : Nat}

theorem ContradictsAt.lt_length (h : ContradictsAt pairs key n) : n < pairs.length := by
  obtain ⟨_, hpair, -⟩ := h
  exact (List.getElem?_eq_some_iff.1 hpair).1

theorem lookup_concat_of_getElem? {item : T} (h : pairs[n]? = some (key, item)) :
    (pairs ++ [pair]).lookup key = pairs.lookup key := by
  have hsome : (pairs.lookup key).isSome :=
    List.lookup_isSome_iff.2 ⟨(key, item), List.mem_of_getElem? h, beq_self_eq_true key⟩
  rw [List.lookup_append, Option.or_of_isSome hsome]

theorem contradictsAt_concat_iff (h : n < pairs.length) :
    ContradictsAt (pairs ++ [pair]) key n ↔ ContradictsAt pairs key n := by
  rw [ContradictsAt, List.getElem?_append_left h]
  refine exists_congr fun item => and_congr_right fun hpair => ?_
  rw [lookup_concat_of_getElem? hpair]

/-- At its own place, a pair contradicts its key if the key has come with something else first. -/
theorem contradictsAt_length_iff :
    ContradictsAt (pairs ++ [pair]) key pairs.length ↔
      key = pair.1 ∧ ∃ item, pairs.lookup key = some item ∧ item ≠ pair.2 := by
  rw [ContradictsAt, List.getElem?_concat_length]
  constructor
  · rintro ⟨item, hpair, hne⟩
    cases hpair
    refine ⟨rfl, ?_⟩
    rw [List.lookup_append] at hne
    cases hfirst : pairs.lookup key with
    | none => simp [hfirst] at hne
    | some item => exact ⟨item, rfl, by simpa [hfirst] using hne⟩
  · rintro ⟨rfl, item, hfirst, hne⟩
    refine ⟨pair.2, rfl, ?_⟩
    rw [List.lookup_append, hfirst]
    simpa using hne

theorem FirstContradiction.concat (h : FirstContradiction pairs key n) :
    FirstContradiction (pairs ++ [pair]) key n := by
  have hlt := h.contradictsAt.lt_length
  refine ⟨(contradictsAt_concat_iff hlt).2 h.contradictsAt, fun m hm hbefore => ?_⟩
  exact h.not_before m hm ((contradictsAt_concat_iff (Nat.lt_trans hm hlt)).1 hbefore)

/-- A key that is contradicted somewhere comes with two different things, and the other way round:
of the two, one is not the first. -/
theorem exists_contradictsAt_iff :
    (∃ n, ContradictsAt pairs key n) ↔ ∃ a b, (key, a) ∈ pairs ∧ (key, b) ∈ pairs ∧ a ≠ b := by
  constructor
  · rintro ⟨n, b, hpair, hne⟩
    have hmem : (key, b) ∈ pairs := List.mem_of_getElem? hpair
    have hsome : (pairs.lookup key).isSome :=
      List.lookup_isSome_iff.2 ⟨(key, b), hmem, beq_self_eq_true key⟩
    obtain ⟨a, ha⟩ := Option.isSome_iff_exists.1 hsome
    exact ⟨a, b, mem_of_lookup_eq_some ha, hmem, fun heq => hne (heq ▸ ha)⟩
  · rintro ⟨a, b, ha, hb, hne⟩
    by_cases hfirst : pairs.lookup key = some a
    · obtain ⟨n, hn⟩ := List.getElem?_of_mem hb
      exact ⟨n, b, hn, fun heq => hne (Option.some.inj (hfirst.symm.trans heq))⟩
    · obtain ⟨n, hn⟩ := List.getElem?_of_mem ha
      exact ⟨n, a, hn, hfirst⟩

variable [DecidableEq T]

/-! ### One more pair -/

namespace Findings

theorem ofPairs_concat (pairs : List (K × T)) (pair : K × T) :
    ofPairs (pairs ++ [pair]) = (ofPairs pairs).note pair := by
  rw [ofPairs, List.foldl_append]
  rfl

variable {f : Findings K T}

private theorem note_of_eq_none (hfirst : f.first.lookup pair.1 = none) :
    f.note pair = { f with first := f.first ++ [pair] } := by
  rw [note, hfirst]

private theorem note_of_eq (hfirst : f.first.lookup pair.1 = some pair.2) : f.note pair = f := by
  rw [note, hfirst]
  exact if_pos rfl

private theorem note_of_ne {item : T} (hfirst : f.first.lookup pair.1 = some item)
    (hne : item ≠ pair.2) :
    f.note pair = { f with conflicts := pushNew f.conflicts pair.1 } := by
  rw [note, hfirst]
  exact if_neg hne

/-- What keys have come with first is looked up as if every pair were kept. -/
theorem lookup_first_note (f : Findings K T) (pair : K × T) (key : K) :
    (f.note pair).first.lookup key = (f.first ++ [pair]).lookup key := by
  cases hfirst : f.first.lookup pair.1 with
  | none => rw [note_of_eq_none hfirst]
  | some item =>
    have hkeeps : (f.note pair).first = f.first := by
      by_cases hitem : item = pair.2
      · rw [note_of_eq (hitem ▸ hfirst)]
      · rw [note_of_ne hfirst hitem]
    rw [hkeeps]
    by_cases hkey : key = pair.1
    · obtain ⟨n, hn⟩ := List.getElem?_of_mem (mem_of_lookup_eq_some hfirst)
      rw [hkey, lookup_concat_of_getElem? hn]
    · have hnone : [pair].lookup key = none :=
        List.lookup_eq_none_iff.2 fun other hother =>
          bne_iff_ne.2 (List.mem_singleton.1 hother ▸ hkey)
      rw [List.lookup_append, hnone, Option.or_none]

/-- What keys have come with first is looked up as in the pairs. -/
theorem lookup_first (pairs : List (K × T)) (key : K) :
    (ofPairs pairs).first.lookup key = pairs.lookup key := by
  induction pairs using List.reverseRecOn with
  | nil => rfl
  | append_singleton pairs pair ih =>
    rw [ofPairs_concat, lookup_first_note, List.lookup_append, List.lookup_append, ih]

end Findings

theorem conflicts_concat_of_contradictsAt
    (h : ContradictsAt (pairs ++ [pair]) pair.1 pairs.length) :
    conflicts (pairs ++ [pair]) = pushNew (conflicts pairs) pair.1 := by
  obtain ⟨-, item, hfirst, hne⟩ := contradictsAt_length_iff.1 h
  rw [← Findings.lookup_first] at hfirst
  rw [conflicts, Findings.ofPairs_concat, Findings.note_of_ne hfirst hne]
  rfl

theorem conflicts_concat_of_not
    (h : ¬ContradictsAt (pairs ++ [pair]) pair.1 pairs.length) :
    conflicts (pairs ++ [pair]) = conflicts pairs := by
  rw [contradictsAt_length_iff, ← Findings.lookup_first] at h
  rw [conflicts, Findings.ofPairs_concat]
  cases hfirst : (Findings.ofPairs pairs).first.lookup pair.1 with
  | none =>
    rw [Findings.note_of_eq_none hfirst]
    rfl
  | some item =>
    have heq : item = pair.2 := by
      by_contra hne
      exact h ⟨rfl, item, hfirst, hne⟩
    rw [Findings.note_of_eq (heq ▸ hfirst)]
    rfl

/-! ### All pairs -/

theorem nodup_conflicts (pairs : List (K × T)) : (conflicts pairs).Nodup := by
  induction pairs using List.reverseRecOn with
  | nil => exact List.nodup_nil
  | append_singleton pairs pair ih =>
    by_cases h : ContradictsAt (pairs ++ [pair]) pair.1 pairs.length
    · rw [conflicts_concat_of_contradictsAt h]
      exact nodup_pushNew ih pair.1
    · rwa [conflicts_concat_of_not h]

/-- The conflicts are the keys that are contradicted somewhere. -/
theorem mem_conflicts_iff_contradictsAt :
    key ∈ conflicts pairs ↔ ∃ n, ContradictsAt pairs key n := by
  induction pairs using List.reverseRecOn with
  | nil => exact ⟨nofun, fun ⟨_, _, h, _⟩ => by simp at h⟩
  | append_singleton pairs pair ih =>
    -- A contradiction is at an earlier place, where the new pair changes nothing, or at its own.
    have hsplit : (∃ n, ContradictsAt (pairs ++ [pair]) key n) ↔
        (∃ n, ContradictsAt pairs key n) ∨
          ContradictsAt (pairs ++ [pair]) key pairs.length := by
      constructor
      · rintro ⟨n, hn⟩
        have hlt := hn.lt_length
        rw [List.length_append, List.length_singleton, Nat.lt_succ_iff_lt_or_eq] at hlt
        rcases hlt with hlt | rfl
        · exact .inl ⟨n, (contradictsAt_concat_iff hlt).1 hn⟩
        · exact .inr hn
      · rintro (⟨n, hn⟩ | hn)
        · exact ⟨n, (contradictsAt_concat_iff hn.lt_length).2 hn⟩
        · exact ⟨_, hn⟩
    rw [hsplit, ← ih]
    by_cases h : ContradictsAt (pairs ++ [pair]) pair.1 pairs.length
    · rw [conflicts_concat_of_contradictsAt h, mem_pushNew]
      refine or_congr_right ⟨fun hkey => hkey ▸ h, fun hkey => (contradictsAt_length_iff.1 hkey).1⟩
    · rw [conflicts_concat_of_not h]
      refine (or_iff_left fun hkey => h ?_).symm
      obtain ⟨rfl, -⟩ := contradictsAt_length_iff.1 hkey
      exact hkey

/-- The conflicts are the keys that come with two different things. -/
theorem mem_conflicts_iff :
    key ∈ conflicts pairs ↔ ∃ a b, (key, a) ∈ pairs ∧ (key, b) ∈ pairs ∧ a ≠ b :=
  mem_conflicts_iff_contradictsAt.trans exists_contradictsAt_iff

/-- There are conflicts if some key comes with two different things, and only then. -/
theorem conflicts_ne_nil_iff :
    conflicts pairs ≠ [] ↔ ∃ key a b, (key, a) ∈ pairs ∧ (key, b) ∈ pairs ∧ a ≠ b := by
  simp only [← mem_conflicts_iff]
  exact ⟨List.exists_mem_of_ne_nil _, fun ⟨_, hkey⟩ => List.ne_nil_of_mem hkey⟩

theorem exists_firstContradiction (h : key ∈ conflicts pairs) :
    ∃ n, FirstContradiction pairs key n := by
  classical
  have hexists := mem_conflicts_iff_contradictsAt.1 h
  exact ⟨Nat.find hexists, Nat.find_spec hexists, fun _ hm => Nat.find_min hexists hm⟩

theorem pairwise_conflicts (pairs : List (K × T)) :
    (conflicts pairs).Pairwise fun key key' => ∃ n n',
      FirstContradiction pairs key n ∧ FirstContradiction pairs key' n' ∧ n < n' := by
  induction pairs using List.reverseRecOn with
  | nil => exact .nil
  | append_singleton pairs pair ih =>
    have hold : (conflicts pairs).Pairwise fun key key' => ∃ n n',
        FirstContradiction (pairs ++ [pair]) key n ∧
          FirstContradiction (pairs ++ [pair]) key' n' ∧ n < n' :=
      ih.imp fun ⟨n, n', h, h', hlt⟩ => ⟨n, n', h.concat, h'.concat, hlt⟩
    by_cases h : ContradictsAt (pairs ++ [pair]) pair.1 pairs.length
    · rw [conflicts_concat_of_contradictsAt h]
      by_cases hmem : pair.1 ∈ conflicts pairs
      · rwa [pushNew_of_mem hmem]
      · have hfirst : FirstContradiction (pairs ++ [pair]) pair.1 pairs.length :=
          ⟨h, fun m hm hbefore => hmem <|
            mem_conflicts_iff_contradictsAt.2 ⟨m, (contradictsAt_concat_iff hm).1 hbefore⟩⟩
        rw [pushNew, if_neg hmem]
        refine List.pairwise_append.2 ⟨hold, List.pairwise_singleton _ _, ?_⟩
        intro key hkey key' hkey'
        obtain ⟨n, hn⟩ := exists_firstContradiction hkey
        rw [List.mem_singleton.1 hkey']
        exact ⟨n, pairs.length, hn.concat, hfirst, hn.contradictsAt.lt_length⟩
    · rwa [conflicts_concat_of_not h]

/-- The conflicts are noted once each, in the order of the first contradictions. -/
theorem listsConflicts_conflicts (pairs : List (K × T)) :
    ListsConflicts pairs (conflicts pairs) :=
  ⟨nodup_conflicts pairs, fun _ => mem_conflicts_iff, pairwise_conflicts pairs⟩

/-- Without conflicts the pairs are kept, repeats dropped. -/
theorem first_ofPairs_eq_distinct (h : conflicts pairs = []) :
    (Findings.ofPairs pairs).first = distinct pairs := by
  induction pairs using List.reverseRecOn with
  | nil => rfl
  | append_singleton pairs pair ih =>
    have hnone : ¬ContradictsAt (pairs ++ [pair]) pair.1 pairs.length := fun hcontra => by
      rw [conflicts_concat_of_contradictsAt hcontra] at h
      exact List.not_mem_nil (h ▸ mem_pushNew.2 (.inr rfl))
    rw [conflicts_concat_of_not hnone] at h
    rw [Findings.ofPairs_concat, distinct_concat, ← ih h]
    cases hfirst : (Findings.ofPairs pairs).first.lookup pair.1 with
    | none =>
      have hmem : pair ∉ (Findings.ofPairs pairs).first := fun hmem => by
        have hne := List.lookup_eq_none_iff.1 hfirst pair hmem
        exact bne_iff_ne.1 hne rfl
      rw [Findings.note_of_eq_none hfirst, pushNew, if_neg hmem]
    | some item =>
      have heq : item = pair.2 := by
        by_contra hne
        rw [Findings.lookup_first] at hfirst
        exact hnone (contradictsAt_length_iff.2 ⟨rfl, item, hfirst, hne⟩)
      subst heq
      rw [Findings.note_of_eq hfirst, pushNew_of_mem (mem_of_lookup_eq_some hfirst)]

end ChartParsing
