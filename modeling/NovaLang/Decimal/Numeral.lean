import NovaLang.Text.Blank
import NovaLang.Text.Digit

namespace NovaLang.Decimal

/-! # Reading numerals

A decimal numeral is read as the double nearest to it. Besides the plain form
of the language there is a generous form: surrounding blanks, a sign, digits of
any script, single underscores between digits, an exponent, and the words for
infinity and not-a-number in any case.
-/

/-- The number a list of digit values stands for. -/
def ofDigits (ds : List Nat) : Nat :=
  ds.foldl (fun n d => 10 * n + d) 0

/-- The value of an ASCII digit. -/
def digitOf (c : Char) : Nat := c.toNat - 48

/-- The double nearest to `coefficient * 10 ^ exponent`: of two equally near ones the even one,
and an infinite one from half a unit beyond the greatest double on. -/
def nearest (coefficient : Nat) (exponent : Int) : Float :=
  if coefficient == 0 then 0.0
  else if exponent < 0 then Float.ofScientific coefficient true (-exponent).toNat
  else Float.ofScientific coefficient false exponent.toNat

/-- The double nearest to the numeral with these digits before and after the point. -/
def ofParts (whole fraction : List Char) : Float :=
  nearest (ofDigits ((whole ++ fraction).map digitOf)) (-fraction.length)

/-- The double a numeral of the language stands for: digits, or digits, a point and digits. -/
def readPlain? (cs : List Char) : Option Float :=
  let whole := cs.takeWhile Char.isDigit
  if whole.isEmpty then none
  else match cs.dropWhile Char.isDigit with
    | [] => some (ofParts whole [])
    | '.' :: fraction =>
      if fraction.isEmpty || !fraction.all Char.isDigit then none
      else some (ofParts whole fraction)
    | _ => none

/-- The ASCII form of a character beyond ASCII: its value for a digit, the blank
for a blank; no other occurs in a numeral. -/
def toAscii (c : Char) : Char :=
  if c.toNat < 128 then c
  else match Text.digitValue? c with
    | some d => Char.ofNat (48 + d)
    | none => if Text.isBlank c then ' ' else '?'

/-- The underscores of a numeral are removed; each must stand between two digits. -/
def dropUnderscores : Char → List Char → Option (List Char)
  | previous, [] => if previous == '_' then none else some []
  | previous, c :: rest =>
    if c == '_' then
      if previous.isDigit then dropUnderscores c rest else none
    else if previous == '_' && !c.isDigit then none
    else (dropUnderscores c rest).map (c :: ·)

/-- An optional sign in front of a numeral. -/
def splitSign : List Char → Bool × List Char
  | '-' :: rest => (true, rest)
  | '+' :: rest => (false, rest)
  | cs => (false, cs)

/-- The exponent part that ends a numeral: nothing, or `e` with a whole number. -/
def readExponent? : List Char → Option Int
  | [] => some 0
  | c :: rest =>
    if c == 'e' || c == 'E' then
      let (negative, ds) := splitSign rest
      if ds.isEmpty || !ds.all Char.isDigit then none
      else
        let n : Int := ofDigits (ds.map digitOf)
        some (if negative then -n else n)
    else none

/-- A numeral without a sign. -/
def readUnsigned? (cs : List Char) : Option Float :=
  let whole := cs.takeWhile Char.isDigit
  let rest := cs.dropWhile Char.isDigit
  let (fraction, rest) := match rest with
    | '.' :: more => (more.takeWhile Char.isDigit, more.dropWhile Char.isDigit)
    | _ => ([], rest)
  if whole.isEmpty && fraction.isEmpty then none
  else (readExponent? rest).map fun e =>
    nearest (ofDigits ((whole ++ fraction).map digitOf)) (e - fraction.length)

/-- The words for infinity and not-a-number. -/
def readWord? (cs : List Char) : Option Float :=
  let word := cs.map Char.toLower
  if word == "inf".toList || word == "infinity".toList then some (1.0 / 0.0)
  else if word == "nan".toList then some (0.0 / 0.0)
  else none

/-- The double a numeral in the generous form stands for. -/
def read? (s : String) : Option Float := do
  let ascii := Text.trimWhere Text.isAsciiBlank (s.toList.map toAscii)
  let cs ← dropUnderscores ' ' ascii
  let (negative, body) := splitSign cs
  let x ← (readWord? body).orElse fun _ => readUnsigned? body
  some (if negative then -x else x)

end NovaLang.Decimal
