import NovaLang.Text.Visible

namespace NovaLang.Text

/-! # Quoted text in messages

A text quoted in a message stands between apostrophes, or between double
quotes when it holds an apostrophe and no double quote. The chosen mark and the
backslash are escaped by a backslash, line breaks and tabs by a letter, and
other characters without a visible form by their code in hexadecimal.
-/

/-- The digit of a number below sixteen. -/
def hexDigit (n : Nat) : Char :=
  Char.ofNat (if n < 10 then 48 + n else 87 + n)

/-- The last `width` hexadecimal digits of a number. -/
def hex : Nat → Nat → List Char
  | 0, _ => []
  | width + 1, n => hex width (n / 16) ++ [hexDigit (n % 16)]

/-- The code of a character without a visible form, in two, four or eight digits. -/
def hiddenEscape (c : Char) : List Char :=
  let n := c.toNat
  if n < 0x100 then ['\\', 'x'] ++ hex 2 n
  else if n < 0x10000 then ['\\', 'u'] ++ hex 4 n
  else ['\\', 'U'] ++ hex 8 n

/-- One character of a quoted text. -/
def quotedChar (mark c : Char) : List Char :=
  if c == mark || c == '\\' then ['\\', c]
  else if c == '\n' then ['\\', 'n']
  else if c == '\r' then ['\\', 'r']
  else if c == '\t' then ['\\', 't']
  else if isVisible c then [c]
  else hiddenEscape c

/-- The quotation mark for a text: an apostrophe unless that alone occurs in it. -/
def markFor (cs : List Char) : Char :=
  if cs.contains '\x27' && !cs.contains '\x22' then '\x22' else '\x27'

/-- A text as it is quoted in messages. -/
def quoted (s : String) : String :=
  let cs := s.toList
  let mark := markFor cs
  String.ofList (mark :: cs.flatMap (quotedChar mark) ++ [mark])

end NovaLang.Text
