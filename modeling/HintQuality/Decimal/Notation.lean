import HintQuality.Text.Digit
import HintQuality.Decimal.Shortest
/-!
# Written numbers

How numbers are written. `floatText` gives the shortest digits that read back, positional from `1e-04` up to below
`1e+16` and always with a point or an exponent; `fixedText` gives a fixed number of places of the exact value.
-/

namespace HintQuality.Decimal

open Text

/-- Digits with a point before the last `places` of them, and at least one digit before the point. -/
def placePoint (ds : List Char) (places : Nat) : List Char :=
  let padded := List.replicate (places + 1 - ds.length) '0' ++ ds
  let whole := padded.take (padded.length - places)
  if places = 0 then whole else whole ++ '.' :: padded.drop (padded.length - places)

/-- An exponent with its sign and at least two digits. -/
def exponentChars (e : Int) : List Char :=
  let ds := (digits e.natAbs).map digitChar
  'e' :: (if e < 0 then '-' else '+') :: (List.replicate (2 - ds.length) '0' ++ ds)

/-- A decimal in positional notation, with at least one place. -/
def positional (s : Scaled) : List Char :=
  let ds := (digits s.digits).map digitChar
  if 0 ≤ s.exponent then ds ++ List.replicate s.exponent.toNat '0' ++ ['.', '0']
  else placePoint ds (-s.exponent).toNat

/-- A decimal with one digit before the point and an exponent. -/
def scientific (s : Scaled) : List Char :=
  let ds := (digits s.digits).map digitChar
  let e := s.exponent + (ds.length - 1 : Nat)
  ds.take 1 ++ (if ds.length = 1 then [] else '.' :: ds.drop 1) ++ exponentChars e

/-- The absolute value of a finite double in the shortest form. -/
def shortestChars (b : Binary) : List Char :=
  let s := shortest b
  let lead := s.exponent + ((digits s.digits).length - 1 : Nat)
  if -4 ≤ lead && lead < 16 then positional s else scientific s

/-- A double as text: `nan`, `inf`, `-inf` or the shortest digits that read back. -/
def floatText (x : Float) : String :=
  if x.isNaN then "nan"
  else if x.isInf then if x < 0 then "-inf" else "inf"
  else
    let b := Binary.ofFloat x
    String.ofList ((if b.negative then ['-'] else []) ++ shortestChars b)

/-- A double with a fixed number of places, the exact value rounded to the nearest, a half to the even digit. -/
def fixedText (places : Nat) (x : Float) : String :=
  if x.isNaN then "nan"
  else if x.isInf then if x < 0 then "-inf" else "inf"
  else
    let b := Binary.ofFloat x
    let (num, den) := b.fraction
    let ds := (digits (divNearestEven (num * tenTo places) den)).map digitChar
    String.ofList ((if b.negative then ['-'] else []) ++ placePoint ds places)

end HintQuality.Decimal
