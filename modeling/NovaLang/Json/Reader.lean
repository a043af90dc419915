import NovaLang.Decimal.Numeral
import NovaLang.Json.Basic

namespace NovaLang.Json

/-! # Reading JSON

A number with a point or an exponent is a double, any other a whole number. The
words `NaN`, `Infinity` and `-Infinity` are doubles. Of two fields with one key
the later counts. Control characters may not stand in strings unescaped.
-/

/-- What a reader finds at the front of a text, and the text after it. -/
abbrev Found (α : Type) := Except Error (α × List Char)

/-- The four blanks of JSON. -/
def isSpace (c : Char) : Bool :=
  c == ' ' || c == '\n' || c == '\t' || c == '\r'

/-- The text after the blanks in front. -/
def skipSpace (cs : List Char) : List Char :=
  cs.dropWhile isSpace

/-- The value of a hexadecimal digit. -/
def hexValue? (c : Char) : Option Nat :=
  if c.isDigit then some (c.toNat - 48)
  else if 'a' ≤ c && c ≤ 'f' then some (c.toNat - 87)
  else if 'A' ≤ c && c ≤ 'F' then some (c.toNat - 55)
  else none

/-- Four hexadecimal digits. -/
def hexQuad? : List Char → Option (Nat × List Char)
  | a :: b :: c :: d :: rest => do
    some (4096 * (← hexValue? a) + 256 * (← hexValue? b) + 16 * (← hexValue? c) + (← hexValue? d),
      rest)
  | _ => none

/-- The low half of a surrogate pair, written as an escape. -/
def lowSurrogate? : List Char → Option (Nat × List Char)
  | '\\' :: 'u' :: rest => do
    let (m, rest) ← hexQuad? rest
    if 0xdc00 ≤ m && m < 0xe000 then some (m, rest) else none
  | _ => none

/-- Half a surrogate pair is no character; a private-use character stands for it. -/
def standIn (n : Nat) : Char := Char.ofNat (0x100000 + n)

/-- The character of a `\u` escape; two escapes may form a surrogate pair. -/
def unicodeEscape? (cs : List Char) : Option (Char × List Char) := do
  let (n, rest) ← hexQuad? cs
  if 0xd800 ≤ n && n < 0xdc00 then
    match lowSurrogate? rest with
    | some (m, rest) =>
      some (Char.ofNat (0x10000 + 1024 * (n - 0xd800) + (m - 0xdc00)), rest)
    | none => some (standIn n, rest)
  else if 0xdc00 ≤ n && n < 0xe000 then some (standIn n, rest)
  else some (Char.ofNat n, rest)

/-- The character of an escape of one letter. -/
def letterEscape? (c : Char) : Option Char :=
  if c == '"' || c == '\\' || c == '/' then some c
  else if c == 'n' then some '\n'
  else if c == 'r' then some '\r'
  else if c == 't' then some '\t'
  else if c == 'b' then some '\x08'
  else if c == 'f' then some '\x0c'
  else none

/-- One character of a string, written as itself or as an escape. -/
def stringChar? : List Char → Option (Char × List Char)
  | [] => none
  | '\\' :: 'u' :: rest => unicodeEscape? rest
  | '\\' :: c :: rest => (letterEscape? c).map (·, rest)
  | c :: rest => if c == '\\' || c.toNat < 32 then none else some (c, rest)

/-- The characters of a string up to its closing quotation mark. -/
def stringBody? : (fuel : Nat) → List Char → Option (List Char × List Char)
  | 0, _ => none
  | fuel + 1, cs =>
    match cs with
    | '"' :: rest => some ([], rest)
    | _ => do
      let (c, rest) ← stringChar? cs
      let (more, rest) ← stringBody? fuel rest
      some (c :: more, rest)

/-- A string whose opening quotation mark has been read. -/
def readString (cs : List Char) : Found String :=
  match stringBody? (cs.length + 1) cs with
  | some (body, rest) => .ok (String.ofList body, rest)
  | none => .error .malformed

/-- The digits in front of a text. -/
def spanDigits (cs : List Char) : List Char × List Char :=
  (cs.takeWhile Char.isDigit, cs.dropWhile Char.isDigit)

/-- The fraction of a number: a point with at least one digit. -/
def fraction? : List Char → Option (List Char × List Char)
  | '.' :: rest =>
    let (ds, rest) := spanDigits rest
    if ds.isEmpty then none else some (ds, rest)
  | _ => none

/-- The exponent of a number: `e`, a sign if any, and at least one digit. -/
def exponent? : List Char → Option (Int × List Char)
  | c :: rest =>
    if c == 'e' || c == 'E' then
      let (negative, rest) := Decimal.splitSign rest
      let (ds, rest) := spanDigits rest
      if ds.isEmpty then none
      else
        let n : Int := Decimal.ofDigits (ds.map Decimal.digitOf)
        some (if negative then -n else n, rest)
    else none
  | [] => none

/-- The whole part of a number: one zero, or digits that do not begin with one. -/
def wholePart? : List Char → Option (List Char × List Char)
  | '0' :: rest => some (['0'], rest)
  | cs =>
    let (ds, rest) := spanDigits cs
    if ds.isEmpty then none else some (ds, rest)

/-- A number without its sign. -/
def readNumber (negative : Bool) (cs : List Char) : Found Json :=
  match wholePart? cs with
  | none => .error .malformed
  | some (whole, rest) =>
    let n := Decimal.ofDigits (whole.map Decimal.digitOf)
    match fraction? rest, exponent? rest with
    | some (fraction, rest), _ =>
      let m := Decimal.ofDigits ((whole ++ fraction).map Decimal.digitOf)
      let (e, rest) := (exponent? rest).getD (0, rest)
      let x := Decimal.nearest m (e - fraction.length)
      .ok (.float (if negative then -x else x), rest)
    | none, some (e, rest) =>
      let x := Decimal.nearest n e
      .ok (.float (if negative then -x else x), rest)
    | none, none =>
      if maxDigits < whole.length then .error (.tooManyDigits (some whole.length))
      else .ok (.int (if negative then -(n : Int) else n), rest)

/-- The text after a word in front of it. -/
def afterWord? (word : String) (cs : List Char) : Option (List Char) :=
  if word.toList.isPrefixOf cs then some (cs.drop word.length) else none

/-- The values that are written as one word. -/
def words : List (String × Json) := [
  ("null", .null), ("true", .bool true), ("false", .bool false), ("NaN", .float (0.0 / 0.0)),
  ("Infinity", .float (1.0 / 0.0)), ("-Infinity", .float (-1.0 / 0.0))]

/-- A value that is neither a string nor a list nor an object. -/
def readAtom (cs : List Char) : Found Json :=
  match words.findSome? fun (word, j) => (afterWord? word cs).map (j, ·) with
  | some found => .ok found
  | none =>
    match cs with
    | '-' :: rest => readNumber true rest
    | _ => readNumber false cs

mutual

/-- A value at the very front of a text. -/
def readValue : (fuel : Nat) → List Char → Except Error (Json × List Char)
  | 0, _ => .error .malformed
  | fuel + 1, cs =>
    match cs with
    | '"' :: rest => (readString rest).map fun (s, rest) => (.str s, rest)
    | '[' :: rest =>
      match skipSpace rest with
      | ']' :: rest => .ok (.arr [], rest)
      | rest => (readItems fuel rest).map fun (items, rest) => (.arr items, rest)
    | '\x7b' :: rest =>
      match skipSpace rest with
      | '\x7d' :: rest => .ok (.obj [], rest)
      | rest => (readFields fuel [] rest).map fun (fields, rest) => (.obj fields, rest)
    | _ => readAtom cs

/-- The elements of a list up to its closing bracket; there is at least one. -/
def readItems : (fuel : Nat) → List Char → Except Error (List Json × List Char)
  | 0, _ => .error .malformed
  | fuel + 1, cs => do
    let (item, rest) ← readValue fuel cs
    match skipSpace rest with
    | ']' :: rest => .ok ([item], rest)
    | ',' :: rest =>
      let (items, rest) ← readItems fuel (skipSpace rest)
      .ok (item :: items, rest)
    | _ => .error .malformed

/-- The fields of an object up to its closing brace, after those already read;
there is at least one. -/
def readFields : (fuel : Nat) → List (String × Json) → List Char →
    Except Error (List (String × Json) × List Char)
  | 0, _, _ => .error .malformed
  | fuel + 1, fields, cs =>
    match cs with
    | '"' :: rest => do
      let (key, rest) ← readString rest
      match skipSpace rest with
      | ':' :: rest =>
        let (value, rest) ← readValue fuel (skipSpace rest)
        let fields := Keyed.set key value fields
        match skipSpace rest with
        | '\x7d' :: rest => .ok (fields, rest)
        | ',' :: rest => readFields fuel fields (skipSpace rest)
        | _ => .error .malformed
      | _ => .error .malformed
    | _ => .error .malformed

end

/-- The value a JSON text stands for. -/
def read (text : String) : Except Error Json := do
  let cs := text.toList
  let (j, rest) ← readValue (cs.length + 1) (skipSpace cs)
  if (skipSpace rest).isEmpty then .ok j else .error .malformed

end NovaLang.Json
