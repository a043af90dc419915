namespace NovaLang.Decimal

/-! # The shortest decimal of a double

A finite double is `m * 2 ^ q`. The reals that round to it form an interval
around it, its ends included exactly when `m` is even. Among the decimals in
that interval the shortest is taken, of equally short ones the nearest.
-/

/-- The exact value `m * 2 ^ q` of a finite double, up to its sign. -/
structure Dyadic where
  mantissa : Nat
  exponent : Int
  /-- The double below lies half as far away as the one above. -/
  narrowBelow : Bool
  deriving DecidableEq, Repr

/-- What the bits of a double stand for. -/
inductive Parts where
  | finite (negative : Bool) (value : Dyadic)
  | infinite (negative : Bool)
  | undefined
  deriving DecidableEq, Repr

/-- Sign, exponent and fraction of a double, put together. -/
def parts (x : Float) : Parts :=
  let bits := x.toBits.toNat
  let negative := bits / Nat.pow 2 63 == 1
  let exponent : Nat := bits / Nat.pow 2 52 % Nat.pow 2 11
  let fraction : Nat := bits % Nat.pow 2 52
  if exponent == 2047 then
    if fraction == 0 then .infinite negative else .undefined
  else if exponent == 0 then
    .finite negative ⟨fraction, -1074, false⟩
  else
    .finite negative ⟨Nat.pow 2 52 + fraction, (exponent : Int) - 1075, fraction == 0 && 1 < exponent⟩

/-- `coefficient * 10 ^ exponent`. -/
structure Scaled where
  coefficient : Nat
  exponent : Int
  deriving DecidableEq, Repr

/-- `b ^ e` when `e` is not negative, else one. -/
def powerUp (b : Nat) (e : Int) : Nat := b.pow e.toNat

/-- `b ^ (-e)` when `e` is negative, else one. -/
def powerDown (b : Nat) (e : Int) : Nat := b.pow (-e).toNat

/-- The value and both ends of its interval on the grid of step `10 ^ step`, as
numerators over one common denominator. -/
structure OnGrid where
  low : Nat
  value : Nat
  high : Nat
  denominator : Nat
  deriving DecidableEq, Repr

/-- A dyadic number and its interval, counted in steps of `10 ^ step`. -/
def Dyadic.onGrid (d : Dyadic) (step : Int) : OnGrid :=
  let quarter := d.exponent - 2
  let unit := powerUp 2 quarter * powerDown 10 step
  let low := if d.narrowBelow then 4 * d.mantissa - 1 else 4 * d.mantissa - 2
  { low := low * unit
    value := 4 * d.mantissa * unit
    high := (4 * d.mantissa + 2) * unit
    denominator := powerDown 2 quarter * powerUp 10 step }

/-- The point of the grid lies in the interval; `closed` says whether its ends do. -/
def OnGrid.holds (g : OnGrid) (closed : Bool) (point : Nat) : Bool :=
  let p := point * g.denominator
  if closed then g.low ≤ p && p ≤ g.high else g.low < p && p < g.high

/-- The point of the grid that stands for the value: of its two neighbours on
the grid the one in the interval, of both the nearer, of equally near ones the
even one. -/
def OnGrid.point? (g : OnGrid) (closed : Bool) : Option Nat :=
  let below := g.value / g.denominator
  let above := below + 1
  match g.holds closed below, g.holds closed above with
  | false, false => none
  | true, false => some below
  | false, true => some above
  | true, true =>
    let toBelow := g.value - below * g.denominator
    let toAbove := above * g.denominator - g.value
    if toBelow < toAbove then some below
    else if toAbove < toBelow then some above
    else if below % 2 == 0 then some below else some above

/-- The power of ten just above the value: the least `e` from the estimate on
with `value < 10 ^ e`. -/
def Dyadic.magnitude (d : Dyadic) : Int :=
  let log2 := (d.mantissa.log2 : Int) + d.exponent
  let estimate := (log2 * 30103).fdiv 100000 + 1
  let fits := d.mantissa * powerUp 2 d.exponent * powerDown 10 estimate <
    powerUp 10 estimate * powerDown 2 d.exponent
  if fits then estimate else estimate + 1

/-- The first grid of at least `digits` digits that has a point in the interval.
Seventeen digits always suffice. -/
def Dyadic.search (d : Dyadic) (magnitude : Int) : (fuel digits : Nat) → Scaled
  | 0, digits =>
    let step := magnitude - digits
    let g := d.onGrid step
    ⟨g.value / g.denominator, step⟩
  | fuel + 1, digits =>
    let step := magnitude - digits
    match (d.onGrid step).point? (d.mantissa % 2 == 0) with
    | some point => ⟨point, step⟩
    | none => search d magnitude fuel (digits + 1)

/-- The shortest decimal that rounds to the value, as a coefficient and a power of ten. -/
def Dyadic.shortest (d : Dyadic) : Scaled :=
  if d.mantissa == 0 then ⟨0, 0⟩ else d.search d.magnitude 17 1

end NovaLang.Decimal
