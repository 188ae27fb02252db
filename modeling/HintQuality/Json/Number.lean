import HintQuality.Failure
/-!
# Numbers from JSON

Values where a number is wanted. Truth values count as zero and one, and text is read as a number; doubles lose
their fraction where an integer is wanted.
-/

namespace HintQuality.Json

/-- The integral part of a double. -/
def wholePart (x : Float) : Except Failure Int :=
  if x.isNaN then .error .nanAsInteger
  else if x.isInf then .error .infinityAsInteger
  else .ok (Decimal.Binary.ofFloat x).truncate

/-- The integer that a text spells. -/
def intOfText (s : String) : Except Failure Int :=
  let digits := (s.toList.filter fun c => (Text.digit? c).isSome).length
  match Decimal.readInt? s with
  | some i => if digits ≤ digitLimit then .ok i else .error (.tooManyDigits digits)
  | none => .error (.notInteger s)

/-- The integer that a value stands for. -/
def toInt : Json → Except Failure Int
  | bool b => .ok (if b then 1 else 0)
  | int i => .ok i
  | float x => wholePart x
  | str s => intOfText s
  | _ => .error .wrongType

/-- The double that a text spells. -/
def floatOfText (s : String) : Except Failure Float :=
  match Decimal.readFloat? s with
  | some x => .ok x
  | none => .error (.notNumber s)

/-- The double that a value stands for. -/
def toFloat : Json → Except Failure Float
  | bool b => .ok (if b then 1.0 else 0.0)
  | int i =>
    let x := Decimal.ofInt i
    if x.isInf then .error .integerTooLarge else .ok x
  | float x => .ok x
  | str s => floatOfText s
  | _ => .error .wrongType

end HintQuality.Json
