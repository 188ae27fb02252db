import HintQuality.Json.Basic
import HintQuality.Decimal.Notation
import HintQuality.Text.Quoted
/-!
# Values in running text

How a JSON value reads inside messages and where text is expected: text stands for itself, but in quotes inside an
array or an object; null, the truth values, arrays and objects have spellings of their own.
-/

namespace HintQuality.Json

mutual

/-- A value inside another one. -/
def quoted : Json → String
  | null => "None"
  | bool true => "True"
  | bool false => "False"
  | int i => Text.intText i
  | float x => Decimal.floatText x
  | str s => Text.quoted s
  | arr items => "[" ++ ", ".intercalate (quotedItems items) ++ "]"
  | obj fields => "\x7b" ++ ", ".intercalate (quotedFields fields) ++ "\x7d"

/-- The items of an array. -/
def quotedItems : List Json → List String
  | [] => []
  | v :: items => v.quoted :: quotedItems items

/-- The fields of an object. -/
def quotedFields : List (String × Json) → List String
  | [] => []
  | (k, v) :: fields => (Text.quoted k ++ ": " ++ v.quoted) :: quotedFields fields

end

/-- A value where text is wanted. -/
def display : Json → String
  | str s => s
  | v => v.quoted

end HintQuality.Json
