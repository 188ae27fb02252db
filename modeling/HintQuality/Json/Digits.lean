import HintQuality.Json.Basic
import HintQuality.Text.Digit
/-!
# Integers with many digits

Integers are exact, but none is read from text or written as text with more than `digitLimit` digits.
-/

namespace HintQuality.Json

/-- The largest number of digits that an integer is read or written with. -/
def digitLimit : Nat := 4300

/-- The number of digits of an integer. -/
def digitCount (i : Int) : Nat :=
  (Text.digits i.natAbs).length

mutual

/-- Whether no integer in a value has too many digits. -/
def isShort : Json → Bool
  | int i => digitCount i ≤ digitLimit
  | arr items => areShort items
  | obj fields => fieldsAreShort fields
  | _ => true

/-- `isShort` of every item. -/
def areShort : List Json → Bool
  | [] => true
  | v :: items => v.isShort && areShort items

/-- `isShort` of the value of every field. -/
def fieldsAreShort : List (String × Json) → Bool
  | [] => true
  | f :: fields => f.2.isShort && fieldsAreShort fields

end

end HintQuality.Json
