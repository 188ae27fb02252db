import HintQuality.Json.Digits
import HintQuality.Decimal.Reader
/-!
# Reading JSON

JSON text into values. Besides the standard it takes `NaN`, `Infinity` and `-Infinity`; numbers with a point or an
exponent are doubles, all others exact integers, as far as their digits are not too many. A `Stop` says what was
missing and how much text was left there, from which `SyntaxError` computes line, column and offset.
-/

namespace HintQuality.Json

open Text

/-- What is wrong with a JSON text. -/
inductive Complaint where
  | expectingValue
  | expectingName
  | expectingColon
  | expectingComma
  | unterminatedString
  | controlCharacter
  | badEscape
  | badUnit
  | extraData
  | byteOrderMark
  deriving DecidableEq, Repr

/-- The complaint in words. -/
def Complaint.text : Complaint → String
  | expectingValue => "Expecting value"
  | expectingName => "Expecting property name enclosed in double quotes"
  | expectingColon => "Expecting ':' delimiter"
  | expectingComma => "Expecting ',' delimiter"
  | unterminatedString => "Unterminated string starting at"
  | controlCharacter => "Invalid control character at"
  | badEscape => "Invalid \\escape"
  | badUnit => "Invalid \\uXXXX escape"
  | extraData => "Extra data"
  | byteOrderMark => "Unexpected UTF-8 BOM (decode using utf-8-sig)"

/-- Why reading stopped. -/
inductive Stop where
  /-- Something is wrong with the text, at a place that is told by the text from there on. -/
  | complaint (c : Complaint) (rest : List Char)
  /-- An integer has more digits than are read. -/
  | tooManyDigits (digits : Nat)
  /-- A string has half of a pair of units. No text here holds one. -/
  | loneSurrogate

/-- The text behind the white space at its front. -/
def skipBlanks (cs : List Char) : List Char :=
  cs.dropWhile fun c => c = ' ' || c = '\t' || c = '\n' || c = '\r'

/-- The value of four hexadecimal digits. -/
def unit? (a b c d : Char) : Option Nat := do
  return ofDigits 16 [← hexDigit? a, ← hexDigit? b, ← hexDigit? c, ← hexDigit? d]

/-- The character that a one-letter escape stands for. -/
def escaped? (c : Char) : Option Char :=
  if c = '"' || c = '\\' || c = '/' then some c
  else if c = 'b' then some '\x08'
  else if c = 'f' then some '\x0c'
  else if c = 'n' then some '\n'
  else if c = 'r' then some '\r'
  else if c = 't' then some '\t'
  else none

/-- Reads a string up to its closing quote into code points and UTF-16 units; `start` is the text from the opening
quote on. An escape of a unit must be followed by something. -/
def stringUnits (start : List Char) : List Char → Except Stop (List Nat × List Char)
  | [] => .error (.complaint .unterminatedString start)
  | '"' :: cs => .ok ([], cs)
  | ['\\'] => .error (.complaint .unterminatedString start)
  | '\\' :: 'u' :: a :: b :: c :: d :: e :: cs =>
    match unit? a b c d with
    | none => .error (.complaint .badUnit ('u' :: a :: b :: c :: d :: e :: cs))
    | some n => (stringUnits start (e :: cs)).map fun r => (n :: r.1, r.2)
  | '\\' :: 'u' :: cs => .error (.complaint .badUnit ('u' :: cs))
  | '\\' :: c :: cs =>
    match escaped? c with
    | none => .error (.complaint .badEscape ('\\' :: c :: cs))
    | some x => (stringUnits start cs).map fun r => (x.toNat :: r.1, r.2)
  | c :: cs =>
    if c.toNat < 32 then .error (.complaint .controlCharacter (c :: cs))
    else (stringUnits start cs).map fun r => (c.toNat :: r.1, r.2)

/-- Whether a unit is half of a pair. -/
def isHalf (n : Nat) : Bool :=
  0xD800 ≤ n && n < 0xE000

/-- Joins the pairs of UTF-16 units that make one character. Half of a pair alone makes none. -/
def joinUnits? : List Nat → Option (List Char)
  | [] => some []
  | [n] => if isHalf n then none else some [Char.ofNat n]
  | h :: l :: ns =>
    if 0xD800 ≤ h && h < 0xDC00 && 0xDC00 ≤ l && l < 0xE000 then
      (joinUnits? ns).map (Char.ofNat (0x10000 + (h - 0xD800) * 0x400 + (l - 0xDC00)) :: ·)
    else if isHalf h then none
    else (joinUnits? (l :: ns)).map (Char.ofNat h :: ·)

/-- Reads a string whose opening quote has been read. -/
def string (cs : List Char) : Except Stop (String × List Char) := do
  let (units, rest) ← stringUnits ('"' :: cs) cs
  match joinUnits? units with
  | some chars => .ok (String.ofList chars, rest)
  | none => .error .loneSurrogate

/-- The ASCII digits at the front, as values, and the rest. -/
def spanAscii (cs : List Char) : List Nat × List Char :=
  ((cs.takeWhile Char.isDigit).map fun c => c.toNat - 48, cs.dropWhile Char.isDigit)

/-- The digits before the point: a single zero, or digits that do not start with one. -/
def wholePart? (cs : List Char) : Option (List Nat × List Char) :=
  match cs with
  | '0' :: rest => some ([0], rest)
  | cs =>
    match spanAscii cs with
    | ([], _) => none
    | r => some r

/-- A point and the digits after it, if there are any. -/
def places? (cs : List Char) : Option (List Nat × List Char) :=
  match cs with
  | '.' :: rest =>
    match spanAscii rest with
    | ([], _) => none
    | r => some r
  | _ => none

/-- The exponent of a number, if one follows. -/
def exponent? (cs : List Char) : Option (Int × List Char) :=
  match cs with
  | c :: rest =>
    if c = 'e' || c = 'E' then
      let (negative, rest) := Decimal.spanSign rest
      match spanAscii rest with
      | ([], _) => none
      | (ds, rest) => let e : Int := ((ofDigits 10 ds : Nat) : Int); some (if negative then -e else e, rest)
    else none
  | [] => none

/-- The longest number at the front, and the rest. -/
def number? (cs : List Char) : Option (Json × List Char) := do
  let (negative, cs) := match cs with
    | '-' :: rest => (true, rest)
    | cs => (false, cs)
  let (whole, cs) ← wholePart? cs
  let (isInt, fraction, cs) := match places? cs with
    | some (ds, rest) => (false, ds, rest)
    | none => (true, [], cs)
  let (isInt, e, cs) := match exponent? cs with
    | some (e, rest) => (false, e, rest)
    | none => (isInt, 0, cs)
  if isInt then
    let n : Int := ((ofDigits 10 whole : Nat) : Int)
    return (.int (if negative then -n else n), cs)
  else
    let x := Decimal.toFloat (ofDigits 10 (whole ++ fraction)) (e - (fraction.length : Nat))
    return (.float (if negative then -x else x), cs)

/-- Refuses an integer with too many digits. -/
def checkDigits : Json × List Char → Except Stop (Json × List Char)
  | (.int i, rest) =>
    if digitCount i ≤ digitLimit then .ok (.int i, rest) else .error (.tooManyDigits (digitCount i))
  | r => .ok r

mutual

/-- Reads a value at the very front of the text. -/
def value : Nat → List Char → Except Stop (Json × List Char)
  | 0, cs => .error (.complaint .expectingValue cs)
  | fuel + 1, cs =>
    match cs with
    | '"' :: rest => (string rest).map fun r => (.str r.1, r.2)
    | '{' :: rest =>
      match skipBlanks rest with
      | '}' :: rest => .ok (.obj [], rest)
      | rest => (members fuel [] rest).map fun r => (.obj r.1, r.2)
    | '[' :: rest =>
      match skipBlanks rest with
      | ']' :: rest => .ok (.arr [], rest)
      | rest => (elements fuel rest).map fun r => (.arr r.1, r.2)
    | 'n' :: 'u' :: 'l' :: 'l' :: rest => .ok (.null, rest)
    | 't' :: 'r' :: 'u' :: 'e' :: rest => .ok (.bool true, rest)
    | 'f' :: 'a' :: 'l' :: 's' :: 'e' :: rest => .ok (.bool false, rest)
    | 'N' :: 'a' :: 'N' :: rest => .ok (.float (0.0 / 0.0), rest)
    | 'I' :: 'n' :: 'f' :: 'i' :: 'n' :: 'i' :: 't' :: 'y' :: rest => .ok (.float (1.0 / 0.0), rest)
    | '-' :: 'I' :: 'n' :: 'f' :: 'i' :: 'n' :: 'i' :: 't' :: 'y' :: rest => .ok (.float (-(1.0 / 0.0)), rest)
    | cs =>
      match number? cs with
      | some r => checkDigits r
      | none => .error (.complaint .expectingValue cs)

/-- Reads the items of an array up to its end. -/
def elements : Nat → List Char → Except Stop (List Json × List Char)
  | 0, cs => .error (.complaint .expectingValue cs)
  | fuel + 1, cs => do
    let (v, rest) ← value fuel cs
    match skipBlanks rest with
    | ']' :: rest => .ok ([v], rest)
    | ',' :: rest => (elements fuel (skipBlanks rest)).map fun r => (v :: r.1, r.2)
    | rest => .error (.complaint .expectingComma rest)

/-- Reads the fields of an object up to its end, adding them to those read before. -/
def members : Nat → Fields → List Char → Except Stop (Fields × List Char)
  | 0, _, cs => .error (.complaint .expectingName cs)
  | fuel + 1, fields, cs => do
    match cs with
    | '"' :: rest =>
      let (name, rest) ← string rest
      match skipBlanks rest with
      | ':' :: rest =>
        let (v, rest) ← value fuel (skipBlanks rest)
        match skipBlanks rest with
        | '}' :: rest => .ok (fields.put name v, rest)
        | ',' :: rest => members fuel (fields.put name v) (skipBlanks rest)
        | rest => .error (.complaint .expectingComma rest)
      | rest => .error (.complaint .expectingColon rest)
    | cs => .error (.complaint .expectingName cs)

end

/-- Reads a whole text: one value between white space. -/
def document (cs : List Char) : Except Stop Json :=
  match cs with
  | '\uFEFF' :: _ => .error (.complaint .byteOrderMark cs)
  | cs => do
    let (v, rest) ← value (2 * cs.length + 2) (skipBlanks cs)
    match skipBlanks rest with
    | [] => .ok v
    | rest => .error (.complaint .extraData rest)

/-- What is wrong with a JSON text and where. -/
structure SyntaxError where
  /-- What is wrong. -/
  complaint : Complaint
  /-- The line, counted from one. -/
  line : Nat
  /-- The column, counted from one. -/
  column : Nat
  /-- The number of characters before the place. -/
  offset : Nat
  deriving DecidableEq, Repr

/-- A complaint at the place in a text that leaves the rest. -/
def SyntaxError.locate (text : List Char) (complaint : Complaint) (rest : List Char) : SyntaxError :=
  let offset := text.length - rest.length
  let before := text.take offset
  { complaint := complaint
    line := before.count '\n' + 1
    column := (before.reverse.takeWhile (· ≠ '\n')).length + 1
    offset := offset }

/-- The error in words. -/
def SyntaxError.message (e : SyntaxError) : String :=
  e.complaint.text ++ ": line " ++ natText e.line ++ " column " ++ natText e.column ++
    " (char " ++ natText e.offset ++ ")"

/-- Why a text cannot be read. -/
inductive ReadError where
  /-- It is no JSON text. -/
  | malformed (e : SyntaxError)
  /-- An integer has more digits than are read. -/
  | tooManyDigits (digits : Nat)
  /-- A string has half of a pair of units. -/
  | loneSurrogate
  deriving DecidableEq, Repr

/-- Why a text cannot be read, given why reading stopped. -/
def ReadError.ofStop (text : List Char) : Stop → ReadError
  | .complaint c rest => .malformed (SyntaxError.locate text c rest)
  | .tooManyDigits n => .tooManyDigits n
  | .loneSurrogate => .loneSurrogate

/-- Reads a JSON text. -/
def parse (s : String) : Except ReadError Json :=
  (document s.toList).mapError (ReadError.ofStop s.toList)

end HintQuality.Json
