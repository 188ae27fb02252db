import HintQuality.Decimal.Binary
/-!
# Shortest decimals

The shortest decimal that reads back as a given double: of all decimals with the fewest digits in the interval of
reals that round to the double, the one nearest to it, and of two equally near the one with the even last digit.

For each number of digits only the two neighbours of the value on that grid are looked at, since a grid that meets
the interval meets it in one of them.
-/

namespace HintQuality.Decimal

/-- A decimal `digits * 10 ^ exponent`. -/
structure Scaled where
  /-- All digits as one number. -/
  digits : Nat
  /-- The power of ten of the last digit. -/
  exponent : Int
  deriving DecidableEq, Repr

/-- The reals that round to a double, in units of `1 / den`: the value and both ends. -/
structure Interval where
  /-- The common denominator. -/
  den : Nat
  /-- The numerator of the lower end. -/
  low : Nat
  /-- The numerator of the value. -/
  value : Nat
  /-- The numerator of the upper end. -/
  high : Nat
  /-- Whether the ends belong to it. -/
  closed : Bool

/-- The interval of a positive double. The neighbour below a power of two is only half as far away. -/
def Interval.ofBinary (b : Binary) : Interval :=
  let scale := if 2 ≤ b.exponent then twoTo (b.exponent - 2).toNat else 1
  let below := if b.mantissa = twoTo 52 ∧ -1074 < b.exponent then 1 else 2
  { den := if 2 ≤ b.exponent then 1 else twoTo (2 - b.exponent).toNat
    low := (4 * b.mantissa - below) * scale
    value := 4 * b.mantissa * scale
    high := (4 * b.mantissa + 2) * scale
    closed := b.mantissa % 2 = 0 }

/-- Whether the fraction `num / den` lies in the interval. -/
def Interval.contains (i : Interval) (num den : Nat) : Bool :=
  let x := num * i.den
  if i.closed then i.low * den ≤ x && x ≤ i.high * den else i.low * den < x && x < i.high * den

/-- The decimal `d * 10 ^ e` as a fraction. -/
def Scaled.fraction (s : Scaled) : Nat × Nat :=
  if 0 ≤ s.exponent then (s.digits * tenTo s.exponent.toNat, 1) else (s.digits, tenTo (-s.exponent).toNat)

/-- Whether the decimal lies in the interval. -/
def Scaled.within (s : Scaled) (i : Interval) : Bool :=
  i.contains s.fraction.1 s.fraction.2

/-- The distance of a decimal from the value of the interval, over the product of both denominators. -/
def Scaled.distance (s : Scaled) (i : Interval) : Nat :=
  let x := s.fraction.1 * i.den
  let v := i.value * s.fraction.2
  (x - v) + (v - x)

/-- The better of the two neighbours on one grid, if any lies in the interval. -/
def nearestOf (i : Interval) (lower upper : Scaled) : Option Scaled :=
  match lower.within i, upper.within i with
  | true, true =>
    let dl := lower.distance i
    let du := upper.distance i
    some (if dl < du ∨ (dl = du ∧ lower.digits % 2 = 0) then lower else upper)
  | true, false => some lower
  | false, true => some upper
  | false, false => none

/-- The value's two neighbours on the grid of multiples of `10 ^ e`. -/
def neighbours (i : Interval) (e : Int) : Scaled × Scaled :=
  let d := if 0 ≤ e then i.value / (i.den * tenTo e.toNat) else i.value * tenTo (-e).toNat / i.den
  (⟨d, e⟩, ⟨d + 1, e⟩)

/-- The number of decimal places before the leading digit of the fraction `num / den`: the least `k` found in
`[low, low + fuel]` with `num / den < 10 ^ k`. -/
def magnitudeFrom (num den : Nat) : Nat → Int → Int
  | 0, k => k
  | fuel + 1, k =>
    let below := if 0 ≤ k then num < den * tenTo k.toNat else num * tenTo (-k).toNat < den
    if below then k else magnitudeFrom num den fuel (k + 1)

/-- The first hit among grids of `n`, `n + 1`, … digits. -/
def firstHit (i : Interval) (k : Int) : Nat → Int → Option Scaled
  | 0, _ => none
  | fuel + 1, n =>
    let (lower, upper) := neighbours i (k - n)
    (nearestOf i lower upper).or (firstHit i k fuel (n + 1))

/-- The same decimal without a last digit zero, which only a carry into a new leading digit leaves. -/
def Scaled.dropZero (s : Scaled) : Scaled :=
  if s.digits % 10 = 0 then ⟨s.digits / 10, s.exponent + 1⟩ else s

/-- The shortest decimal that reads back as the absolute value of the double; zero is `0`. Seventeen digits always
suffice. -/
def shortest (b : Binary) : Scaled :=
  if b.mantissa = 0 then ⟨0, 0⟩
  else
    let i := Interval.ofBinary b
    let k := magnitudeFrom i.value i.den 640 (-330)
    ((firstHit i k 17 1).getD ⟨0, 0⟩).dropZero

end HintQuality.Decimal
