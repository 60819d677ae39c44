import ChartParsing.Text.Unprintable

/-!
# Texts of keys and values

A key or a value has two texts: the plain one is its content alone, the literal one is quoted and
escaped, so that it shows where it begins and ends and which characters it holds.

## Main definitions

* `Plain`, `Literal`: the types with a plain text and with a literal text.
* `escape`: one character as it stands between quotes.
-/

namespace ChartParsing

universe u

/-- The types whose values have a plain text. -/
class Plain (α : Type u) where
  /-- The content of a value, as it is. -/
  plain : α → String

/-- The types whose values have a literal text. -/
class Literal (α : Type u) where
  /-- A value quoted and escaped. -/
  literal : α → String

export Plain (plain)
export Literal (literal)

/-! ### Escapes -/

/-- The number of a character in lower-case hexadecimal digits, without leading zeros. -/
def codePoint (c : Char) : String :=
  String.ofList (Nat.toDigits 16 c.toNat)

/-- A character as it stands between two quotes: five characters have a letter, the quote and the
backslash follow a backslash, and an unprintable character is given by its number. -/
def escape (quote c : Char) : String :=
  if c = '\x00' then "\\0"
  else if c = '\t' then "\\t"
  else if c = '\r' then "\\r"
  else if c = '\n' then "\\n"
  else if c = '\\' then "\\\\"
  else if c = quote then "\\" ++ String.singleton quote
  else if isUnprintable c then "\\u\x7b" ++ codePoint c ++ "\x7d"
  else String.singleton c

/-- A list of characters between two quotes. -/
def quoted (quote : Char) (text : List Char) : String :=
  String.singleton quote ++ String.join (text.map (escape quote)) ++ String.singleton quote

/-! ### Instances -/

instance : Plain String := ⟨id⟩

instance : Plain Char := ⟨String.singleton⟩

instance : Plain Int := ⟨Int.repr⟩

/-- A string stands between double quotes. -/
instance : Literal String := ⟨fun s => quoted '\x22' s.toList⟩

/-- A character stands between single quotes. -/
instance : Literal Char := ⟨fun c => quoted '\x27' [c]⟩

/-- An integer is its decimal digits, with a sign if it is negative. -/
instance : Literal Int := ⟨Int.repr⟩

/-- A list stands between brackets, with a comma between its items. -/
instance {α : Type u} [Literal α] : Literal (List α) :=
  ⟨fun l => "[" ++ ", ".intercalate (l.map literal) ++ "]"⟩

end ChartParsing
