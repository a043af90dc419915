import NovaLang.Text.Range

namespace NovaLang.Text

/-! # Blank characters

The blanks that are cut off both ends of a line typed at the prompt: the
characters with the Unicode property White_Space and the four separators
U+001C to U+001F.
-/

/-- The closed ranges of blank characters. -/
def blankRanges : List (Nat × Nat) := [
  (0x09, 0x0d), (0x1c, 0x20), (0x85, 0x85), (0xa0, 0xa0), (0x1680, 0x1680), (0x2000, 0x200a),
  (0x2028, 0x2029), (0x202f, 0x202f), (0x205f, 0x205f), (0x3000, 0x3000)]

/-- Blank in the sense of Unicode, the separators U+001C to U+001F included. -/
def isBlank (c : Char) : Bool :=
  inRanges blankRanges c.toNat

/-- Blank in the sense of ASCII: the blank itself, and the tab up to the carriage return. -/
def isAsciiBlank (c : Char) : Bool :=
  c == ' ' || '\x09' ≤ c && c ≤ '\x0d'

/-- The text without the characters of a class at both ends. -/
def trimWhere (p : Char → Bool) (cs : List Char) : List Char :=
  ((cs.dropWhile p).reverse.dropWhile p).reverse

/-- The text without the blanks at both ends. -/
def trim (cs : List Char) : List Char :=
  trimWhere isBlank cs

end NovaLang.Text
