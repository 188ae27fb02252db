import HintQuality.Json.Basic
import HintQuality.Decimal.Notation
/-!
# JSON text

Values as JSON text in ASCII: other characters are written as the escapes of their UTF-16 units. The separators are
a parameter, so that the compact form of tree files and the spaced form of log lines have one printer.
-/

namespace HintQuality.Json

open Text

/-- What stands between items and between a name and its value. -/
structure Separators where
  /-- Between two items or two fields. -/
  item : List Char
  /-- Between the name of a field and its value. -/
  pair : List Char

/-- No spaces. -/
def Separators.compact : Separators := ⟨[','], [':']⟩

/-- A space after each comma and each colon. -/
def Separators.spaced : Separators := ⟨[',', ' '], [':', ' ']⟩

/-- The escape of a UTF-16 unit. -/
def unitEscape (n : Nat) : List Char :=
  '\\' :: 'u' :: hex 4 n

/-- One character inside a JSON string. -/
def stringChar (c : Char) : List Char :=
  if c = '"' then ['\\', '"']
  else if c = '\\' then ['\\', '\\']
  else if c = '\n' then ['\\', 'n']
  else if c = '\r' then ['\\', 'r']
  else if c = '\t' then ['\\', 't']
  else if c = '\x08' then ['\\', 'b']
  else if c = '\x0c' then ['\\', 'f']
  else if 32 ≤ c.toNat && c.toNat ≤ 126 then [c]
  else if c.toNat < 0x10000 then unitEscape c.toNat
  else unitEscape (0xD800 + (c.toNat - 0x10000) / 0x400) ++ unitEscape (0xDC00 + (c.toNat - 0x10000) % 0x400)

/-- A JSON string with its quotes. -/
def stringChars (s : String) : List Char :=
  '"' :: s.toList.flatMap stringChar ++ ['"']

/-- A double as a JSON number, or one of the three names for what is no number. -/
def floatChars (x : Float) : List Char :=
  if x.isNaN then ['N', 'a', 'N']
  else if x.isInf then if x < 0 then '-' :: "Infinity".toList else "Infinity".toList
  else (Decimal.floatText x).toList

mutual

/-- The JSON text of a value. -/
def chars (sep : Separators) : Json → List Char
  | null => ['n', 'u', 'l', 'l']
  | bool true => ['t', 'r', 'u', 'e']
  | bool false => ['f', 'a', 'l', 's', 'e']
  | int i => (intText i).toList
  | float x => floatChars x
  | str s => stringChars s
  | arr [] => ['[', ']']
  | arr (v :: items) => '[' :: (v.chars sep ++ itemChars sep items) ++ [']']
  | obj [] => ['{', '}']
  | obj ((k, v) :: fields) => '{' :: (stringChars k ++ sep.pair ++ v.chars sep ++ fieldChars sep fields) ++ ['}']

/-- The items after the first, each after a separator. -/
def itemChars (sep : Separators) : List Json → List Char
  | [] => []
  | v :: items => sep.item ++ v.chars sep ++ itemChars sep items

/-- The fields after the first, each after a separator. -/
def fieldChars (sep : Separators) : List (String × Json) → List Char
  | [] => []
  | (k, v) :: fields => sep.item ++ stringChars k ++ sep.pair ++ v.chars sep ++ fieldChars sep fields

end

/-- The JSON text of a value. -/
def render (sep : Separators) (v : Json) : String :=
  String.ofList (v.chars sep)

mutual

/-- The value with the fields of all objects in the order of their names. -/
def sortKeys : Json → Json
  | arr items => arr (sortKeysItems items)
  | obj fields => obj ((sortKeysFields fields).mergeSort fun a b => !(b.1 < a.1))
  | v => v

/-- `sortKeys` on every item. -/
def sortKeysItems : List Json → List Json
  | [] => []
  | v :: items => v.sortKeys :: sortKeysItems items

/-- `sortKeys` on the value of every field. -/
def sortKeysFields : List (String × Json) → List (String × Json)
  | [] => []
  | (k, v) :: fields => (k, v.sortKeys) :: sortKeysFields fields

end

end HintQuality.Json
