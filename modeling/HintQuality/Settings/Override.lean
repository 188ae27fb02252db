import HintQuality.Decimal.Reader
import HintQuality.Failure
import HintQuality.Text.Blank
import HintQuality.Text.Lines
/-!
# Overrides

Changes to composed settings as they are written on a command line: `name=value` changes a setting, a plus sign adds
one, two do either, and a tilde takes one away. Values are null, truth values, numbers, quoted or plain text, lists and
objects. Several values for one setting are a sweep, which needs more than one run.
-/

namespace HintQuality.Settings

/-- What an override does. -/
inductive OverrideKind where
  | change
  | add
  | put
  | delete
  deriving DecidableEq, Repr

/-- The value of an override. -/
inductive OverrideValue where
  /-- No value is given. -/
  | absent
  | single (v : Json)
  /-- Several values to choose from. -/
  | sweep

/-- A change to composed settings. -/
structure Override where
  kind : OverrideKind
  /-- The dotted name. -/
  name : String
  value : OverrideValue

namespace Override

/-- Fails since an override is not well formed. -/
def malformed {α : Type} : Except Failure α :=
  .error (.malformedSettings .badOverride)

/-- Whether a character may stand in the name of a setting. -/
def isNameChar (c : Char) : Bool :=
  c.isAlphanum || ['_', '.', '-', '/', '$', '@', ':'].contains c

/-- Whether a character may stand in plain text. -/
def isTextChar (c : Char) : Bool :=
  c.isAlphanum || ['_', '/', '-', '\\', '+', '.', '$', '%', '*', '@', '?', '|', ':', ' ', '\t'].contains c

/-- A space or a tab. -/
def isBlank (c : Char) : Bool :=
  c = ' ' || c = '\t'

/-- Whether a text is a number without a sign: no zero in front, and underscores behind a digit. -/
def isDigits (s : List Char) : Bool :=
  match s with
  | ['0'] => true
  | '0' :: _ => false
  | c :: s => c.isDigit && s.all fun d => d.isDigit || d = '_'
  | [] => false

/-- A text without its sign. -/
def withoutSign : List Char → List Char
  | '-' :: s => s
  | '+' :: s => s
  | s => s

/-- What plain text stands for. -/
def plainValue (s : List Char) : Json :=
  let word := String.ofList (s.map Char.toLower)
  let text := String.ofList s
  if word = "null" then .null
  else if word = "true" then .bool true
  else if word = "false" then .bool false
  else if isDigits (withoutSign s) then
    match Decimal.readInt? text with
    | some i => .int i
    | none => .str text
  else if s.all (fun c => c.isAlphanum || ['.', '+', '-', '_'].contains c) && !(withoutSign s).all Char.isDigit then
    match Decimal.readFloat? text with
    | some x => .float x
    | none => .str text
  else .str text

/-- The text between quotes, and what is behind it. -/
def readQuoted (quote : Char) : List Char → Option (List Char × List Char)
  | [] => none
  | c :: s =>
    if c = '\\' && s.head? = some quote then (readQuoted quote s.tail).map fun r => (quote :: r.1, r.2)
    else if c = quote then some ([], s)
    else (readQuoted quote s).map fun r => (c :: r.1, r.2)
  termination_by s => s.length
  decreasing_by all_goals (simp_all; try omega)

/-- The characters that a backslash makes plain. -/
def escapable : List Char := ['\\', '(', ')', '[', ']', '{', '}', ':', '=', ',', ' ', '\t']

/-- Plain text, references in braces included, and what is behind it; `fuel` bounds its length. -/
def readPlain (isInner : Bool) : Nat → List Char → List Char × List Char
  | 0, s => ([], s)
  | _, [] => ([], [])
  | fuel + 1, '$' :: '{' :: s =>
    let inside := s.takeWhile (· ≠ '}')
    match s.dropWhile (· ≠ '}') with
    | '}' :: rest =>
      let (t, r) := readPlain isInner fuel rest
      ('$' :: '{' :: inside ++ '}' :: t, r)
    | rest => ([], '$' :: '{' :: inside ++ rest)
  | fuel + 1, '\\' :: c :: s =>
    let (t, r) := readPlain isInner fuel s
    if escapable.contains c then (c :: t, r) else if isTextChar c then ('\\' :: c :: t, r) else (['\\'], c :: s)
  | fuel + 1, c :: s =>
    if isTextChar c && !(isInner && c = ':') then
      let (t, r) := readPlain isInner fuel s
      (c :: t, r)
    else ([], c :: s)

/-- A text without the blanks at its ends. -/
def trimBlanks (s : List Char) : List Char :=
  ((s.dropWhile isBlank).reverse.dropWhile isBlank).reverse

mutual

/-- A value, and what is behind it; `fuel` bounds its length. -/
def readElement : Nat → List Char → Except Failure (Json × List Char)
  | 0, _ => malformed
  | fuel + 1, s =>
    match s.dropWhile isBlank with
    | '[' :: r => (readItems true fuel (r.dropWhile isBlank)).map fun x => (.arr x.1, x.2)
    | '{' :: r => (readFields true fuel (r.dropWhile isBlank)).map fun x => (.obj x.1, x.2)
    | '\'' :: r =>
      match readQuoted '\'' r with
      | some (t, r) => .ok (.str (String.ofList t), r)
      | none => malformed
    | '"' :: r =>
      match readQuoted '"' r with
      | some (t, r) => .ok (.str (String.ofList t), r)
      | none => malformed
    | r =>
      let (t, r) := readPlain false (r.length + 1) r
      if (trimBlanks t).isEmpty then malformed else .ok (plainValue (trimBlanks t), r)

/-- The items of a list up to its bracket. -/
def readItems (isFirst : Bool) : Nat → List Char → Except Failure (List Json × List Char)
  | 0, _ => malformed
  | fuel + 1, s =>
    match s, isFirst with
    | ']' :: r, true => .ok ([], r)
    | s, _ => do
      let (v, r) ← readElement fuel s
      match r.dropWhile isBlank with
      | ',' :: r => (readItems false fuel r).map fun x => (v :: x.1, x.2)
      | ']' :: r => return ([v], r)
      | _ => malformed

/-- The fields of an object up to its brace. -/
def readFields (isFirst : Bool) : Nat → List Char → Except Failure (Json.Fields × List Char)
  | 0, _ => malformed
  | fuel + 1, s =>
    match s, isFirst with
    | '}' :: r, true => .ok ([], r)
    | s, _ => do
      let (k, r) ← match s.dropWhile isBlank with
        | '\'' :: r => (readQuoted '\'' r).elim malformed .ok
        | '"' :: r => (readQuoted '"' r).elim malformed .ok
        | r => .ok (readPlain true (r.length + 1) r)
      let name := String.ofList (trimBlanks k)
      match r.dropWhile isBlank with
      | ':' :: r =>
        let (v, r) ← readElement fuel r
        match r.dropWhile isBlank with
        | ',' :: r => (readFields false fuel r).map fun x => ((name, v) :: x.1, x.2)
        | '}' :: r => return ([(name, v)], r)
        | _ => malformed
      | _ => malformed

end

/-- Values behind commas, which make a sweep. -/
def readMore : Nat → List Char → Except Failure Bool
  | 0, _ => malformed
  | fuel + 1, s =>
    match s.dropWhile isBlank with
    | [] => .ok false
    | ',' :: r => do
      let (_, r) ← readElement (r.length + 1) r
      let _ ← readMore fuel r
      return true
    | _ => malformed

/-- The value behind an equals sign; nothing is empty text. -/
def readValue (s : List Char) : Except Failure OverrideValue := do
  if s.all isBlank then return .single (.str "")
  else
    let (v, r) ← readElement (s.length + 1) s
    return if ← readMore (r.length + 1) r then .sweep else .single v

/-- Reads an override. -/
def read (s : String) : Except Failure Override := do
  let (kind, r) := match s.toList with
    | '~' :: r => (OverrideKind.delete, r)
    | '+' :: '+' :: r => (.put, r)
    | '+' :: r => (.add, r)
    | r => (.change, r)
  let name := trimBlanks (r.takeWhile (· ≠ '='))
  if name.isEmpty || !name.all isNameChar then malformed
  else
    match r.dropWhile (· ≠ '=') with
    | _ :: v => return ⟨kind, String.ofList name, ← readValue v⟩
    | [] => if kind = .delete then return ⟨kind, String.ofList name, .absent⟩ else malformed

end Override

end HintQuality.Settings
