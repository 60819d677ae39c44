import ChartParsing.Text.Literal
import Mathlib.Tactic.SplitIfs

/-!
# Reading literal texts

What stands between quotes can be read back: no escape is the beginning of another one, and none of
them begins with the quote. There are no line breaks in it, since a line break is escaped.

## Main definitions

* `letters`: the letters that stand for characters after a backslash.
* `IsEscape`: what stands for a character between quotes.
* `IsQuote`: the quotes around strings and around characters.

## Main results

* `codePoint_inj`: the digits of a character give back the character.
* `IsEscape.append_inj`: an escape gives back its character and shows where it ends.
* `IsQuote.quoted_injective`, `IsQuote.newline_notMem_quoted`: different texts are different between
  quotes, and they stay on one line.
-/

namespace ChartParsing

/-! ### Marks -/

private theorem append_cons_inj {a : Char} {front front' rest rest' : List Char}
    (hfront : a ∉ front) (hfront' : a ∉ front') (h : front ++ a :: rest = front' ++ a :: rest') :
    front = front' ∧ rest = rest' := by
  -- If one front went on beyond the other, it would go on with the mark.
  rcases List.append_eq_append_iff.1 h with
    ⟨_ | ⟨b, more⟩, rfl, hmore⟩ | ⟨_ | ⟨b, more⟩, rfl, hmore⟩
  · exact ⟨(List.append_nil front).symm, (List.cons.inj hmore).2⟩
  · cases hmore
    exact absurd (List.mem_append_right front List.mem_cons_self) hfront'
  · exact ⟨List.append_nil front', (List.cons.inj hmore).2.symm⟩
  · cases hmore
    exact absurd (List.mem_append_right front' List.mem_cons_self) hfront

/-! ### Hexadecimal digits -/

private theorem digitChar_inj_of_lt {m n : Nat} (hm : m < 16) (hn : n < 16)
    (h : m.digitChar = n.digitChar) : m = n := by
  have hall : ∀ m < 16, ∀ n < 16, m.digitChar = n.digitChar → m = n := by decide
  exact hall m hm n hn h

private theorem exists_digitChar_of_mem_toDigits {n : Nat} {c : Char} (h : c ∈ Nat.toDigits 16 n) :
    ∃ m < 16, m.digitChar = c := by
  induction n using Nat.strongRecOn with
  | ind n ih =>
    rw [Nat.toDigits_eq_if (by decide)] at h
    split at h
    · exact ⟨n, ‹_›, (List.mem_singleton.1 h).symm⟩
    · rcases List.mem_append.1 h with h | h
      · exact ih (n / 16) (by omega) h
      · exact ⟨n % 16, by omega, (List.mem_singleton.1 h).symm⟩

private theorem toDigits_inj {m n : Nat} (h : Nat.toDigits 16 m = Nat.toDigits 16 n) : m = n := by
  have hsingle {k : Nat} {a b : Char} : [a] ≠ Nat.toDigits 16 k ++ [b] := fun h =>
    Nat.toDigits_ne_nil (List.append_inj' (show [] ++ [a] = _ from h) rfl).1.symm
  induction m using Nat.strongRecOn generalizing n with
  | ind m ih =>
    rw [Nat.toDigits_eq_if (by decide), Nat.toDigits_eq_if (n := n) (by decide)] at h
    split at h <;> split at h
    · exact digitChar_inj_of_lt ‹_› ‹_› (List.singleton_inj.1 h)
    · exact absurd h hsingle
    · exact absurd h.symm hsingle
    · obtain ⟨hinit, hlast⟩ := List.append_inj' h rfl
      have hdiv := ih (m / 16) (by omega) hinit
      have hmod := digitChar_inj_of_lt (by omega) (by omega) (List.singleton_inj.1 hlast)
      omega

/-- The digits of a character give back the character. -/
theorem codePoint_inj {c d : Char} (h : codePoint c = codePoint d) : c = d :=
  Char.toNat_inj.1 (toDigits_inj (String.ofList_injective h))

private theorem notMem_codePoint {c d : Char} (h : ∀ m < 16, m.digitChar ≠ d) :
    d ∉ (codePoint c).toList := by
  rw [codePoint, String.toList_ofList]
  intro hmem
  obtain ⟨m, hm, hd⟩ := exists_digitChar_of_mem_toDigits hmem
  exact h m hm hd

private theorem brace_notMem_codePoint {c : Char} : '\x7d' ∉ (codePoint c).toList :=
  notMem_codePoint (by decide)

/-! ### Escapes -/

/-- The characters that are escaped by a letter, each with its letter. -/
def letters (quote : Char) : List (Char × Char) :=
  [('\x00', '0'), ('\t', 't'), ('\r', 'r'), ('\n', 'n'), ('\\', '\\'), (quote, quote)]

/-- The text is an escape of the character: a letter or the number after a backslash, or the
character itself if it has no letter. -/
inductive IsEscape (quote c : Char) : List Char → Prop where
  /-- A character with a letter. -/
  | letter {letter : Char} (h : (c, letter) ∈ letters quote) : IsEscape quote c ['\\', letter]
  /-- An unprintable character. -/
  | number : IsEscape quote c ('\\' :: 'u' :: '\x7b' :: ((codePoint c).toList ++ ['\x7d']))
  /-- A character that stands for itself. -/
  | plain (h : ∀ letter, (c, letter) ∉ letters quote) : IsEscape quote c [c]

theorem isEscape_escape (quote c : Char) : IsEscape quote c (escape quote c).toList := by
  unfold escape
  split_ifs with h₀ ht hr hn hbackslash hquote
  · have hletter : (c, '0') ∈ letters quote := by simp [letters, h₀]
    exact .letter hletter
  · have hletter : (c, 't') ∈ letters quote := by simp [letters, ht]
    exact .letter hletter
  · have hletter : (c, 'r') ∈ letters quote := by simp [letters, hr]
    exact .letter hletter
  · have hletter : (c, 'n') ∈ letters quote := by simp [letters, hn]
    exact .letter hletter
  · have hletter : (c, '\\') ∈ letters quote := by simp [letters, hbackslash]
    exact .letter hletter
  · rw [String.toList_append, String.toList_singleton]
    exact .letter (by simp [letters, hquote])
  · rw [String.toList_append, String.toList_append]
    exact .number
  · rw [String.toList_singleton]
    exact .plain fun letter => by simp [letters, h₀, ht, hr, hn, hbackslash, hquote]

/-- The quotes that are in use. -/
def IsQuote (quote : Char) : Prop := quote = '\x22' ∨ quote = '\x27'

namespace IsQuote

variable {quote : Char}

private theorem letters_inj (hquote : IsQuote quote) : ∀ p ∈ letters quote, ∀ p' ∈ letters quote,
    p.2 = p'.2 → p.1 = p'.1 := by
  rcases hquote with rfl | rfl <;> decide

private theorem letter_ne_u (hquote : IsQuote quote) : ∀ p ∈ letters quote, p.2 ≠ 'u' := by
  rcases hquote with rfl | rfl <;> decide

private theorem letter_ne_newline (hquote : IsQuote quote) : ∀ p ∈ letters quote, p.2 ≠ '\n' := by
  rcases hquote with rfl | rfl <;> decide

private theorem ne_backslash (hquote : IsQuote quote) : quote ≠ '\\' := by
  rcases hquote with rfl | rfl <;> decide

end IsQuote

namespace IsEscape

variable {quote c d : Char} {text text' rest rest' : List Char}

private theorem ne_backslash_of_plain (h : ∀ letter, (c, letter) ∉ letters quote) : c ≠ '\\' := by
  rintro rfl
  exact h '\\' (by simp [letters])

theorem append_ne_cons (hquote : IsQuote quote) (h : IsEscape quote c text) :
    text ++ rest ≠ quote :: rest' := by
  cases h with
  | letter _ => exact fun heq => hquote.ne_backslash (List.cons.inj heq).1.symm
  | number => exact fun heq => hquote.ne_backslash (List.cons.inj heq).1.symm
  | plain hnone =>
    intro heq
    cases heq
    exact hnone quote (by simp [letters])

/-- An escape gives back its character and shows where it ends. -/
theorem append_inj (hquote : IsQuote quote) (hc : IsEscape quote c text)
    (hd : IsEscape quote d text') (h : text ++ rest = text' ++ rest') : c = d ∧ rest = rest' := by
  cases hc with
  | letter hletter =>
    cases hd with
    | letter hletter' =>
      obtain ⟨heq, hrest⟩ := List.cons.inj (List.cons.inj h).2
      exact ⟨hquote.letters_inj _ hletter _ hletter' heq, hrest⟩
    | number =>
      exact absurd (List.cons.inj (List.cons.inj h).2).1 (hquote.letter_ne_u _ hletter)
    | plain hnone => exact absurd (List.cons.inj h).1.symm (ne_backslash_of_plain hnone)
  | number =>
    cases hd with
    | letter hletter' =>
      exact absurd (List.cons.inj (List.cons.inj h).2).1.symm (hquote.letter_ne_u _ hletter')
    | number =>
      have hnumbers : (codePoint c).toList ++ '\x7d' :: rest =
          (codePoint d).toList ++ '\x7d' :: rest' := by
        simpa using h
      obtain ⟨heq, hrest⟩ := append_cons_inj brace_notMem_codePoint brace_notMem_codePoint hnumbers
      exact ⟨codePoint_inj (String.toList_inj.1 heq), hrest⟩
    | plain hnone => exact absurd (List.cons.inj h).1.symm (ne_backslash_of_plain hnone)
  | plain hnone =>
    cases hd with
    | letter _ => exact absurd (List.cons.inj h).1 (ne_backslash_of_plain hnone)
    | number => exact absurd (List.cons.inj h).1 (ne_backslash_of_plain hnone)
    | plain _ => exact List.cons.inj h

/-- A line break has a letter. -/
theorem newline_notMem (hquote : IsQuote quote) (h : IsEscape quote c text) : '\n' ∉ text := by
  cases h with
  | letter hletter =>
    have hne := hquote.letter_ne_newline _ hletter
    simpa using Ne.symm hne
  | number =>
    have hdigits : '\n' ∉ (codePoint c).toList := notMem_codePoint (by decide)
    simpa using hdigits
  | plain hnone =>
    rw [List.mem_singleton]
    rintro rfl
    exact hnone 'n' (by simp [letters])

end IsEscape

/-! ### Quoted texts -/

theorem toList_quoted (quote : Char) (text : List Char) : (quoted quote text).toList =
    quote :: (text.flatMap fun c => (escape quote c).toList) ++ [quote] := by
  simp [quoted, String.toList_join, List.flatMap_map]

namespace IsQuote

variable {quote : Char}

/-- The closing quote shows where the escapes end. -/
theorem flatMap_escape_append_inj (hquote : IsQuote quote) {text text' rest rest' : List Char}
    (h : (text.flatMap fun c => (escape quote c).toList) ++ quote :: rest =
      (text'.flatMap fun c => (escape quote c).toList) ++ quote :: rest') :
    text = text' ∧ rest = rest' := by
  induction text generalizing text' with
  | nil =>
    cases text' with
    | nil => exact ⟨rfl, (List.cons.inj h).2⟩
    | cons d text' =>
      rw [List.flatMap_cons, List.append_assoc] at h
      exact absurd h.symm ((isEscape_escape quote d).append_ne_cons hquote)
  | cons c text ih =>
    rw [List.flatMap_cons, List.append_assoc] at h
    cases text' with
    | nil => exact absurd h ((isEscape_escape quote c).append_ne_cons hquote)
    | cons d text' =>
      rw [List.flatMap_cons, List.append_assoc] at h
      obtain ⟨rfl, htexts⟩ := (isEscape_escape quote c).append_inj hquote
        (isEscape_escape quote d) h
      obtain ⟨rfl, hrest⟩ := ih htexts
      exact ⟨rfl, hrest⟩

/-- Different texts are different between quotes. -/
theorem quoted_injective (hquote : IsQuote quote) : Function.Injective (quoted quote) := by
  intro text text' h
  have hlist := congrArg String.toList h
  rw [toList_quoted, toList_quoted] at hlist
  exact (hquote.flatMap_escape_append_inj (List.cons.inj hlist).2).1

/-- There are no line breaks between quotes. -/
theorem newline_notMem_quoted (hquote : IsQuote quote) (text : List Char) :
    '\n' ∉ (quoted quote text).toList := by
  have hquote' : '\n' ≠ quote := by rcases hquote with rfl | rfl <;> decide
  have htext : '\n' ∉ text.flatMap fun c => (escape quote c).toList := by
    rw [List.mem_flatMap]
    rintro ⟨c, -, hc⟩
    exact (isEscape_escape quote c).newline_notMem hquote hc
  rw [toList_quoted]
  simp [hquote', htext]

end IsQuote

/-! ### Keys -/

theorem literal_string_injective : Function.Injective (literal : String → String) :=
  fun _ _ h => String.toList_inj.1 (IsQuote.quoted_injective (.inl rfl) h)

theorem newline_notMem_literal_string (key : String) : '\n' ∉ (literal key).toList :=
  IsQuote.newline_notMem_quoted (.inl rfl) key.toList

end ChartParsing
