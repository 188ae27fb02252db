/-!
# Doubles as integers

A finite double is a sign, a natural mantissa and a power of two. Everything exact about a double, its digits, its
rounding and its integral part, is computed from these in natural numbers.
-/

namespace HintQuality.Decimal

/-- A power of two. -/
abbrev twoTo (n : Nat) : Nat :=
  Nat.pow 2 n

/-- A power of ten. -/
abbrev tenTo (n : Nat) : Nat :=
  Nat.pow 10 n

/-- A finite double: `mantissa * 2 ^ exponent`, negated if `negative`. -/
structure Binary where
  /-- Whether the sign bit is set, also for zero. -/
  negative : Bool
  /-- The significand as a natural number below `2 ^ 53`. -/
  mantissa : Nat
  /-- The power of two of the last place. -/
  exponent : Int
  deriving DecidableEq, Repr

namespace Binary

/-- Reads the bits of a finite double: normal numbers carry an implicit leading one, subnormal ones do not. -/
def ofBits (bits : Nat) : Binary :=
  let field : Nat := bits / twoTo 52 % twoTo 11
  let fraction : Nat := bits % twoTo 52
  { negative := twoTo 63 ≤ bits
    mantissa := if field = 0 then fraction else fraction + twoTo 52
    exponent := if field = 0 then -1074 else (field : Int) - 1075 }

/-- The parts of a finite double. -/
def ofFloat (x : Float) : Binary :=
  ofBits x.toBits.toNat

/-- The absolute value as a fraction of natural numbers. -/
def fraction (b : Binary) : Nat × Nat :=
  if 0 ≤ b.exponent then (b.mantissa * twoTo b.exponent.toNat, 1) else (b.mantissa, twoTo (-b.exponent).toNat)

/-- The integral part, rounding towards zero. -/
def truncate (b : Binary) : Int :=
  let n : Int := ((b.fraction.1 / b.fraction.2 : Nat) : Int)
  if b.negative then -n else n

end Binary

/-- Division of natural numbers, to the nearest, a half to the even neighbour. -/
def divNearestEven (num den : Nat) : Nat :=
  let q := num / den
  let r := num % den
  if 2 * r < den then q
  else if den < 2 * r then q + 1
  else if q % 2 = 0 then q else q + 1

end HintQuality.Decimal
