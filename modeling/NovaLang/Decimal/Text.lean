import NovaLang.Decimal.Shortest

namespace NovaLang.Decimal

/-! # Numbers as text

Two ways to write a double. The *exact* text has the shortest digits that read
back as the same double and always a point or an exponent. The *display* text
is what a program prints: a whole number below `10 ^ 21` has neither point nor
exponent, every other number its exact text.
-/

/-- The decisions of a text format for doubles. -/
structure Layout where
  /-- The least decimal exponent written without an exponent part. -/
  leastPlain : Int
  /-- The first decimal exponent again written with one. -/
  firstScientific : Int
  /-- The least number of digits of an exponent. -/
  exponentDigits : Nat
  /-- What a whole number written without an exponent ends in. -/
  wholeSuffix : String
  infinity : String
  undefined : String
  deriving DecidableEq, Repr

/-- The decimal digits of a number. -/
def digits (n : Nat) : List Char := Nat.toDigits 10 n

/-- A list padded in front with zeros up to a length. -/
def padZeros (width : Nat) (cs : List Char) : List Char :=
  List.replicate (width - cs.length) '0' ++ cs

/-- The digits without the zeros at their end. -/
def dropTrailingZeros (cs : List Char) : List Char :=
  (cs.reverse.dropWhile (· == '0')).reverse

/-- The digits `ds` with the point after the first `whole` of them, without an exponent part. -/
def plain (l : Layout) (ds : List Char) (whole : Int) : List Char :=
  if whole ≤ 0 then ['0', '.'] ++ List.replicate (-whole).toNat '0' ++ ds
  else if ds.length ≤ whole.toNat then
    ds ++ List.replicate (whole.toNat - ds.length) '0' ++ l.wholeSuffix.toList
  else ds.take whole.toNat ++ ['.'] ++ ds.drop whole.toNat

/-- The digits `ds` with the point after the first one, and the exponent part. -/
def scientific (l : Layout) (ds : List Char) (exponent : Int) : List Char :=
  let fraction := ds.drop 1
  ds.take 1 ++ (if fraction.isEmpty then [] else '.' :: fraction) ++
    ['e', if exponent < 0 then '-' else '+'] ++ padZeros l.exponentDigits (digits exponent.natAbs)

/-- A decimal number in a layout; zero has the digit 0 alone. -/
def Scaled.write (l : Layout) (s : Scaled) : List Char :=
  if s.coefficient == 0 then '0' :: l.wholeSuffix.toList
  else
    let all := digits s.coefficient
    let ds := dropTrailingZeros all
    let exponent := s.exponent + all.length - 1
    if l.leastPlain ≤ exponent && exponent < l.firstScientific then plain l ds (exponent + 1)
    else scientific l ds exponent

/-- A sign in front of a text. -/
def signed (negative : Bool) (cs : List Char) : List Char :=
  if negative then '-' :: cs else cs

/-- A double in a layout. -/
def write (l : Layout) (x : Float) : String :=
  match parts x with
  | .finite negative d => String.ofList (signed negative (d.shortest.write l))
  | .infinite negative => String.ofList (signed negative l.infinity.toList)
  | .undefined => l.undefined

/-- Exponents from -4 to 15 are written without an exponent part, a whole number
ends in `.0`, and an exponent has a sign and at least two digits. -/
def exactLayout : Layout := ⟨-4, 16, 2, ".0", "inf", "nan"⟩

/-- The exact text of a double: its shortest digits, with a point or an exponent. -/
def exact (x : Float) : String := write exactLayout x

/-- The value of a dyadic number that is whole. -/
def Dyadic.whole? (d : Dyadic) : Option Nat :=
  let scaled := d.mantissa * powerUp 2 d.exponent
  let divisor := powerDown 2 d.exponent
  if scaled % divisor == 0 then some (scaled / divisor) else none

/-- The whole number that a double is. -/
def whole? (x : Float) : Option Int :=
  match parts x with
  | .finite negative d => d.whole?.map fun n => if negative then -(n : Int) else n
  | _ => none

/-- Whole numbers below this bound are displayed digit by digit. -/
def displayBound : Nat := Nat.pow 10 21

/-- The text a program prints for a double. -/
def display (x : Float) : String :=
  match parts x with
  | .finite negative d =>
    match d.whole? with
    | some n =>
      if n < displayBound then String.ofList (signed negative (digits n)) else exact x
    | none => exact x
  | _ => exact x

end NovaLang.Decimal
