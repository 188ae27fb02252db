import HintQuality.Decimal.Reader
import HintQuality.Failure
import HintQuality.Text.Lines
/-!
# Plain scalars

What a scalar without quotes stands for: null, a truth value, a number or, if nothing else, text. Numbers may be
written in several bases, with underscores, and with colons between digits of base sixty. A dialect settles what the
common rules leave open.
-/

namespace HintQuality.Yaml

/-- What the common rules leave open. -/
structure Dialect where
  /-- Whether digits with an exponent but without a point, or with an exponent without a sign, are a double. -/
  bareExponents : Bool
  /-- Whether dates are something else than text. -/
  dates : Bool

/-- The rules for reading settings. -/
def Dialect.settings : Dialect := ⟨true, false⟩

/-- The rules for writing reports. -/
def Dialect.report : Dialect := ⟨false, true⟩

/-- A decimal digit. -/
def isDigit (c : Char) : Bool := '0' ≤ c && c ≤ '9'

/-- A decimal digit or an underscore. -/
def isDigitOrLine (c : Char) : Bool := isDigit c || c = '_'

/-- A text without its sign, and whether that is a minus. -/
def splitSign : List Char → Bool × List Char
  | '-' :: s => (true, s)
  | '+' :: s => (false, s)
  | s => (false, s)

/-- The digits of a text without underscores. -/
def withoutLines (s : List Char) : List Char :=
  s.filter (· ≠ '_')

/-- The value of a digit in a base up to sixteen. -/
def digitValue (c : Char) : Nat :=
  if isDigit c then c.toNat - 48 else if 'a' ≤ c && c ≤ 'f' then c.toNat - 87 else c.toNat - 55

/-- The number that digits of a base spell. -/
def digitsValue (base : Nat) (s : List Char) : Nat :=
  (withoutLines s).foldl (fun n c => n * base + digitValue c) 0

/-- Whether a text begins with a digit and goes on with digits and underscores. -/
def isDigits : List Char → Bool
  | c :: s => isDigit c && s.all isDigitOrLine
  | [] => false

/-- Whether a text is one or two digits of base sixty. -/
def isSixtieth : List Char → Bool
  | [c] => isDigit c
  | [c, d] => '0' ≤ c && c ≤ '5' && isDigit d
  | _ => false

/-- The number that the parts of a text in base sixty spell. -/
def sixtiethsValue (parts : List (List Char)) : Nat :=
  parts.foldl (fun n p => n * 60 + digitsValue 10 p) 0

/-- The natural number that a text without a sign spells. -/
def readNat? (s : List Char) : Option Nat :=
  match s with
  | ['0'] => some 0
  | '0' :: 'b' :: d :: r =>
    if (d :: r).all fun c => c = '0' || c = '1' || c = '_' then some (digitsValue 2 (d :: r)) else none
  | '0' :: 'x' :: d :: r =>
    if (d :: r).all fun c => isDigitOrLine c || ('a' ≤ c && c ≤ 'f') || ('A' ≤ c && c ≤ 'F') then
      some (digitsValue 16 (d :: r))
    else none
  | '0' :: r => if r.all fun c => ('0' ≤ c && c ≤ '7') || c = '_' then some (digitsValue 8 r) else none
  | _ =>
    match Text.pieces ':' s with
    | [p] => if isDigits p then some (digitsValue 10 p) else none
    | p :: ps => if isDigits p && ps.all isSixtieth then some (sixtiethsValue (p :: ps)) else none
    | [] => none

/-- The integer that a text spells. -/
def readInt? (s : List Char) : Option Int :=
  let (negative, r) := splitSign s
  (readNat? r).map fun n => if negative then -(n : Int) else n

/-- Whether a text is an exponent: a letter, a sign, which some dialects do without, and digits. -/
def isExponent (d : Dialect) : List Char → Bool
  | e :: s =>
    let digits := if d.bareExponents then (splitSign s).2 else
      match s with
      | '-' :: r => r
      | '+' :: r => r
      | _ => []
    (e = 'e' || e = 'E') && !digits.isEmpty && digits.all isDigit
  | [] => false

/-- Whether a text is a decimal without a sign. -/
def isDecimal (d : Dialect) (s : List Char) : Bool :=
  let whole := s.takeWhile isDigitOrLine
  match s.dropWhile isDigitOrLine with
  | '.' :: r =>
    let fraction := r.takeWhile isDigitOrLine
    let rest := r.dropWhile isDigitOrLine
    (isDigits whole || (whole.isEmpty && isDigits fraction)) && (rest.isEmpty || isExponent d rest)
  | rest => d.bareExponents && isDigits whole && isExponent d rest

/-- The double that a text of base sixty with a fraction spells. -/
def readSixtieths? (s : List Char) : Option Float :=
  match (Text.pieces ':' s).reverse with
  | last :: p :: ps =>
    let whole := last.takeWhile isDigit
    match last.dropWhile isDigit with
    | '.' :: fraction =>
      let first := (p :: ps).getLast?.getD []
      let middle := (p :: ps).dropLast
      if isDigits first && middle.all isSixtieth && isSixtieth whole && fraction.all isDigitOrLine then
        (Decimal.readFloat? (String.ofList (whole ++ '.' :: withoutLines fraction))).map fun x =>
          Decimal.ofInt (60 * sixtiethsValue (p :: ps).reverse : Nat) + x
      else none
    | _ => none
  | _ => none

/-- The double that a text spells. -/
def readFloat? (d : Dialect) (s : List Char) : Option Float :=
  let (negative, r) := splitSign s
  let signed (x : Float) : Float := if negative then -x else x
  let word := String.ofList r
  if word ∈ [".inf", ".Inf", ".INF"] then some (signed (1.0 / 0.0))
  else if String.ofList s ∈ [".nan", ".NaN", ".NAN"] then some (0.0 / 0.0)
  else if isDecimal d r && (r.head? ≠ some '.' || r.length = s.length) then
    (Decimal.readFloat? (String.ofList (withoutLines r))).map signed
  else (readSixtieths? r).map signed

/-- Whether a text has the form of a date. -/
def isDay (s : List Char) : Bool :=
  match Text.pieces '-' s with
  | [y, m, d] => [y, m, d].all (·.all isDigit) && y.length = 4 && m.length = 2 && d.length = 2
  | _ => false

/-- Whether a text is one or two digits. -/
def isShort (s : List Char) : Bool :=
  s.all isDigit && (s.length = 1 || s.length = 2)

/-- Whether a text is exactly two digits. -/
def isPair (s : List Char) : Bool :=
  s.all isDigit && s.length = 2

/-- Whether a text names an offset from universal time. -/
def isZone (s : List Char) : Bool :=
  match s.dropWhile fun c => c = ' ' || c = '\t' with
  | [] => s.isEmpty
  | ['Z'] => true
  | sign :: r =>
    (sign = '-' || sign = '+') &&
      match Text.pieces ':' r with
      | [h] => isShort h
      | [h, m] => isShort h && isPair m
      | _ => false

/-- Whether a text is a time of day, with a fraction and an offset or without. -/
def isTime (s : List Char) : Bool :=
  match Text.pieces ':' (s.takeWhile fun c => isDigit c || c = ':') with
  | [h, m, sec] =>
    let rest := s.dropWhile fun c => isDigit c || c = ':'
    let zone := match rest with
      | '.' :: r => r.dropWhile isDigit
      | r => r
    isShort h && isPair m && isPair sec && isZone zone
  | _ => false

/-- Whether a text has the form of a date with a time. -/
def isMoment (s : List Char) : Bool :=
  let day := s.takeWhile fun c => isDigit c || c = '-'
  let gap := (s.dropWhile fun c => isDigit c || c = '-').takeWhile fun c => c = ' ' || c = '\t' || c = 'T' || c = 't'
  let time := (s.dropWhile fun c => isDigit c || c = '-').dropWhile fun c =>
    c = ' ' || c = '\t' || c = 'T' || c = 't'
  (match Text.pieces '-' day with
    | [y, m, d] => y.all isDigit && y.length = 4 && isShort m && isShort d
    | _ => false) &&
    (gap = ['T'] || gap = ['t'] || (!gap.isEmpty && gap.all fun c => c = ' ' || c = '\t')) && isTime time

/-- The words for true. -/
def trueWords : List String := ["yes", "Yes", "YES", "true", "True", "TRUE", "on", "On", "ON"]

/-- The words for false. -/
def falseWords : List String := ["no", "No", "NO", "false", "False", "FALSE", "off", "Off", "OFF"]

/-- The words for nothing. -/
def nullWords : List String := ["", "~", "null", "Null", "NULL"]

/-- What a plain scalar stands for. -/
def plainValue (d : Dialect) (s : String) : Json :=
  if s ∈ nullWords then .null
  else if s ∈ trueWords then .bool true
  else if s ∈ falseWords then .bool false
  else
    match readInt? s.toList with
    | some i => .int i
    | none =>
      match readFloat? d s.toList with
      | some x => .float x
      | none => .str s

/-- Whether a text means itself when it is written without quotes. -/
def readsAsText (d : Dialect) (s : String) : Bool :=
  (match plainValue d s with
    | .str _ => true
    | _ => false) &&
    s ≠ "<<" && s ≠ "=" && !(d.dates && (isDay s.toList || isMoment s.toList))

end HintQuality.Yaml
