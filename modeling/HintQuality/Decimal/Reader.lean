import HintQuality.Text.Blank
import HintQuality.Text.Digit
import HintQuality.Decimal.Binary
/-!
# Reading numbers

Numbers in text fields: an optional sign and digits of any script, with single underscores between digits allowed.
`readFloat?` also takes a point, an exponent and the names of the infinities and of NaN; `readInt?` takes digits
only. White space around a number does not count.
-/

namespace HintQuality.Decimal

open Text

/-- The double nearest to `mantissa * 10 ^ exponent`: zero below the least double and infinity above the greatest. -/
def toFloat (mantissa : Nat) (exponent : Int) : Float :=
  let lead := exponent + ((digits mantissa).length : Nat)
  if mantissa = 0 || lead < -400 then 0.0
  else if 400 < lead then 1.0 / 0.0
  else Float.ofScientific mantissa (exponent < 0) exponent.natAbs

/-- The double nearest to an integer; infinite for integers beyond the range of doubles. -/
def ofInt (i : Int) : Float :=
  if i < 0 then -(toFloat i.natAbs 0) else toFloat i.natAbs 0

/-- The white space that may surround a number: all but the four ASCII separators. -/
def isMargin (c : Char) : Bool :=
  isBlank c && !(28 ≤ c.toNat && c.toNat ≤ 31)

/-- The digit values at the front of a text, single underscores between them skipped, and the rest. -/
def spanDigits : List Char → List Nat × List Char
  | [] => ([], [])
  | [c] => match digit? c with
    | some d => ([d], [])
    | none => ([], [c])
  | c :: c' :: cs => match digit? c with
    | none => ([], c :: c' :: cs)
    | some d =>
      if c' = '_' then
        match spanDigits cs with
        | ([], _) => ([d], c' :: cs)
        | (ds, rest) => (d :: ds, rest)
      else
        let (ds, rest) := spanDigits (c' :: cs)
        (d :: ds, rest)

/-- An optional sign: whether it is a minus, and the rest. -/
def spanSign : List Char → Bool × List Char
  | '-' :: cs => (true, cs)
  | '+' :: cs => (false, cs)
  | cs => (false, cs)

/-- The exponent that ends a number. Nothing is an exponent of zero; anything else must be one completely. -/
def readExponent? : List Char → Option Int
  | [] => some 0
  | c :: cs =>
    if c = 'e' || c = 'E' then
      let (negative, rest) := spanSign cs
      match spanDigits rest with
      | ([], _) => none
      | (ds, []) =>
        let e : Int := ((ofDigits 10 ds : Nat) : Int)
        some (if negative then -e else e)
      | _ => none
    else none

/-- An unsigned decimal with an optional point and exponent. -/
def readDecimal? (cs : List Char) : Option Float :=
  let (whole, rest) := spanDigits cs
  let (places, rest) := match rest with
    | '.' :: rest => spanDigits rest
    | rest => ([], rest)
  if whole.isEmpty && places.isEmpty then none
  else (readExponent? rest).map fun e => toFloat (ofDigits 10 (whole ++ places)) (e - (places.length : Nat))

/-- The number that a text spells. -/
def readFloat? (s : String) : Option Float :=
  let (negative, cs) := spanSign (trimBy isMargin s.toList)
  let magnitude :=
    let name := String.ofList (cs.map Char.toLower)
    if name = "inf" || name = "infinity" then some (1.0 / 0.0 : Float)
    else if name = "nan" then some (0.0 / 0.0 : Float)
    else readDecimal? cs
  magnitude.map fun x => if negative then -x else x

/-- The integer that a text spells. -/
def readInt? (s : String) : Option Int :=
  let (negative, cs) := spanSign (trimBy isMargin s.toList)
  match spanDigits cs with
  | ([], _) => none
  | (ds, []) =>
    let n : Int := ((ofDigits 10 ds : Nat) : Int)
    some (if negative then -n else n)
  | _ => none

end HintQuality.Decimal
