import NovaLang.Json.Basic

namespace NovaLang.Json

/-! # Writing JSON

JSON text with or without line breaks. Only the double quote, the backslash and
the control characters below U+0020 are escaped; an infinite double is
`Infinity` and an undefined one `NaN`. A whole number of too many digits has no
text, and data with such a number in it cannot be written.
-/

/-- Doubles in JSON: the exact layout with the names JSON text uses. -/
def floatLayout : Decimal.Layout :=
  { Decimal.exactLayout with infinity := "Infinity", undefined := "NaN" }

/-- One character of a JSON string. -/
def escapeChar (c : Char) : List Char :=
  if c == '"' then ['\\', '"']
  else if c == '\\' then ['\\', '\\']
  else if c == '\n' then ['\\', 'n']
  else if c == '\r' then ['\\', 'r']
  else if c == '\t' then ['\\', 't']
  else if c == '\x08' then ['\\', 'b']
  else if c == '\x0c' then ['\\', 'f']
  else if c.toNat < 32 then ['\\', 'u'] ++ Text.hex 4 c.toNat
  else [c]

/-- A JSON string with its quotation marks, in front of a text. -/
def quote (s : String) (rest : List Char) : List Char :=
  '"' :: (s.toList.flatMap escapeChar ++ '"' :: rest)

/-- How lists and objects are laid out. -/
inductive Style where
  /-- All on one line. -/
  | compact
  /-- One element a line, indented by two more blanks at each depth. -/
  | indented
  deriving DecidableEq, Repr

/-- What stands before an element at a depth, and before the closing bracket of
the next depth. -/
def Style.newline (style : Style) (depth : Nat) : List Char :=
  match style with
  | .compact => []
  | .indented => '\n' :: List.replicate (2 * depth) ' '

/-- What stands between two elements at a depth. -/
def Style.comma (style : Style) (depth : Nat) : List Char :=
  match style with
  | .compact => [',', ' ']
  | .indented => ',' :: style.newline depth

mutual

/-- The text of a value at a depth, in front of a text. -/
def chars (style : Style) (depth : Nat) (j : Json) (rest : List Char) : List Char :=
  match j with
  | .null => "null".toList ++ rest
  | .bool b => (if b then "true" else "false").toList ++ rest
  | .int n => (toString n).toList ++ rest
  | .float x => (Decimal.write floatLayout x).toList ++ rest
  | .str s => quote s rest
  | .arr [] => '[' :: ']' :: rest
  | .arr (a :: as) =>
    '[' :: (style.newline (depth + 1) ++ chars style (depth + 1) a
      (itemChars style (depth + 1) as (style.newline depth ++ ']' :: rest)))
  | .obj [] => '\x7b' :: '\x7d' :: rest
  | .obj ((k, a) :: as) =>
    '\x7b' :: (style.newline (depth + 1) ++ quote k (':' :: ' ' :: chars style (depth + 1) a
      (fieldChars style (depth + 1) as (style.newline depth ++ '\x7d' :: rest))))

/-- The text of the elements after the first, in front of a text. -/
def itemChars (style : Style) (depth : Nat) (items : List Json) (rest : List Char) : List Char :=
  match items with
  | [] => rest
  | a :: as => style.comma depth ++ chars style depth a (itemChars style depth as rest)

/-- The text of the fields after the first, in front of a text. -/
def fieldChars (style : Style) (depth : Nat) (fields : List (String × Json))
    (rest : List Char) : List Char :=
  match fields with
  | [] => rest
  | (k, a) :: as =>
    style.comma depth ++
      quote k (':' :: ' ' :: chars style depth a (fieldChars style depth as rest))

end

/-- The JSON text of a value whose whole numbers may have any number of digits. -/
def write (style : Style) (j : Json) : String :=
  String.ofList (chars style 0 j [])

/-! ## Writing piece by piece -/

/-- The text that has been written, and how the writing ended. -/
structure Written where
  text : List Char
  outcome : Except Error Unit

namespace Written

/-- A piece of text that can be written. -/
def piece (text : List Char) : Written := ⟨text, .ok ()⟩

/-- A piece that cannot be written, since a number in it has too many digits. -/
def refused : Written := ⟨[], .error (.tooManyDigits none)⟩

/-- Goes on writing unless a piece has been refused. -/
def next (w more : Written) : Written :=
  match w.outcome with
  | .ok () => ⟨w.text ++ more.text, more.outcome⟩
  | .error _ => w

end Written

mutual

/-- Writes a value at a depth behind a text, which is one piece with a value that has no parts. -/
def writing (style : Style) (depth : Nat) (front : List Char) (j : Json) : Written :=
  match j with
  | .int n =>
    if maxDigits < (Decimal.digits n.natAbs).length then .refused
    else .piece (front ++ (toString n).toList)
  | .arr (a :: as) =>
    (Written.piece front).next
      ((writing style (depth + 1) ('[' :: style.newline (depth + 1)) a).next
        ((writingItems style (depth + 1) as).next (.piece (style.newline depth ++ [']']))))
  | .obj ((k, a) :: as) =>
    (Written.piece (front ++ '\x7b' :: (style.newline (depth + 1) ++ quote k [':', ' ']))).next
      ((writing style (depth + 1) [] a).next
        ((writingFields style (depth + 1) as).next (.piece (style.newline depth ++ ['\x7d']))))
  | j => .piece (front ++ chars style depth j [])

/-- Writes the elements after the first. -/
def writingItems (style : Style) (depth : Nat) (items : List Json) : Written :=
  match items with
  | [] => .piece []
  | a :: as => (writing style depth (style.comma depth) a).next (writingItems style depth as)

/-- Writes the fields after the first. -/
def writingFields (style : Style) (depth : Nat) (fields : List (String × Json)) : Written :=
  match fields with
  | [] => .piece []
  | (k, a) :: as =>
    (Written.piece (style.comma depth ++ quote k [':', ' '])).next
      ((writing style depth [] a).next (writingFields style depth as))

end

/-- The JSON text of a value, if it has one. -/
def dump (style : Style) (j : Json) : Except Error String :=
  let w := writing style 0 [] j
  w.outcome.map fun _ => String.ofList w.text

end NovaLang.Json
