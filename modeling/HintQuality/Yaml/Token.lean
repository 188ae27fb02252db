import HintQuality.Yaml.Text
/-!
# Tokens of structured text

The marks and scalars that a document is made of. Indentation becomes marks too: a collection that is written as lines
begins with a mark of its own and ends with one. That a scalar is a key shows only at the colon behind it, so the
places where a key may have begun are kept until then, one for each level of brackets; a key fits on one line.
-/

namespace HintQuality.Yaml

/-- A mark or a scalar. -/
inductive Token where
  | documentStart
  | documentEnd
  | directive
  | sequenceStart
  | mappingStart
  | blockEnd
  | openBracket
  | closeBracket
  | openBrace
  | closeBrace
  | entry
  | comma
  | key
  | value
  | reference (name : String)
  | anchor (name : String)
  | tag (name : String)
  | scalar (text : String) (isPlain : Bool)
  | streamEnd
  /-- From here on the text makes no sense. -/
  | broken
  deriving DecidableEq, Repr

/-- A place where a key may have begun. -/
structure Mark where
  /-- The number of tokens before. -/
  number : Nat
  /-- Whether there has to be a key. -/
  isRequired : Bool
  index : Nat
  line : Nat
  column : Nat

/-- Where the reading of tokens stands. -/
structure Scan where
  cursor : Cursor
  /-- The tokens so far. -/
  tokens : List Token := []
  /-- The number of open brackets and braces. -/
  flow : Nat := 0
  /-- The indentation of the innermost collection of lines. -/
  indent : Int := -1
  /-- The indentations of those around it. -/
  outer : List Int := []
  /-- Whether a key may begin here. -/
  allowsKey : Bool := true
  /-- The places where a key may have begun, by the number of open brackets. -/
  marks : List (Nat × Mark) := []

namespace Scan

/-- The longest key, in characters. -/
def keyLimit : Nat := 1024

/-- Adds a token. -/
def push (s : Scan) (t : Token) : Scan :=
  { s with tokens := s.tokens ++ [t] }

/-- Adds a token that takes up a number of characters. -/
def take (s : Scan) (n : Nat) (t : Token) : Scan :=
  { s.push t with cursor := s.cursor.skip n }

/-- Forgets the place of a key on the current level; fails if there had to be a key. -/
def forget (s : Scan) : Except Failure Scan :=
  match s.marks.lookup s.flow with
  | some m => if m.isRequired then badToken else .ok { s with marks := s.marks.filter (·.1 ≠ s.flow) }
  | none => .ok s

/-- Remembers that a key may begin here. -/
def remember (s : Scan) : Except Failure Scan := do
  if s.allowsKey then
    let s ← s.forget
    let c := s.cursor
    let m : Mark := ⟨s.tokens.length, s.flow = 0 && s.indent = c.column, c.index, c.line, c.column⟩
    return { s with marks := (s.flow, m) :: s.marks }
  else return s

/-- Forgets the places of keys that would not fit on one line. -/
def forgetOld (s : Scan) : Except Failure Scan :=
  let isOld (m : Mark) : Bool := m.line ≠ s.cursor.line || m.index + keyLimit < s.cursor.index
  if s.marks.any fun m => isOld m.2 && m.2.isRequired then badToken
  else .ok { s with marks := s.marks.filter fun m => !isOld m.2 }

/-- Ends the collections of lines that are indented further than a column. -/
def unwindWithin : Nat → Int → Scan → Scan
  | 0, _, s => s
  | fuel + 1, column, s =>
    if column < s.indent then
      unwindWithin fuel column { s.push .blockEnd with indent := s.outer.head?.getD (-1), outer := s.outer.tail }
    else s

/-- Ends the collections of lines that are indented further than a column, outside of brackets. -/
def unwind (s : Scan) (column : Int) : Scan :=
  if s.flow = 0 then unwindWithin (s.outer.length + 1) column s else s

/-- Begins a collection of lines at a column, with its mark in front of token number `n`, unless one began there. -/
def begin (s : Scan) (column n : Nat) (t : Token) : Scan :=
  if s.indent < column then
    { s with tokens := s.tokens.take n ++ t :: s.tokens.drop n, indent := column, outer := s.indent :: s.outer }
  else s

/-! ## One token -/

/-- Spaces, comments and line breaks in front of a token; a key may begin on a new line outside of brackets. -/
def skipSpace : Nat → Scan → Scan
  | 0, s => s
  | fuel + 1, s =>
    let (_, c) := s.cursor.span (· = ' ')
    let (_, c) := if c.peek = '#' then c.span fun x => !isBreak x else ([], c)
    match c.takeBreak? with
    | some (_, c) => skipSpace fuel { s with cursor := c, allowsKey := s.allowsKey || s.flow = 0 }
    | none => { s with cursor := c }

/-- The end of the text. -/
def takeEnd (s : Scan) : Except Failure Scan := do
  let s ← (s.unwind (-1)).forget
  return s.push .streamEnd

/-- A mark between documents. -/
def takeMark (s : Scan) (t : Token) : Except Failure Scan := do
  let s ← (s.unwind (-1)).forget
  return { s.take 3 t with allowsKey := false }

/-- A directive, which takes up its line. -/
def takeDirective (s : Scan) : Except Failure Scan := do
  let s ← (s.unwind (-1)).forget
  return { s.push .directive with cursor := (s.cursor.span fun x => !isBreak x).2, allowsKey := false }

/-- An opening bracket or brace. -/
def takeOpen (s : Scan) (t : Token) : Except Failure Scan := do
  let s ← s.remember
  return { s.take 1 t with flow := s.flow + 1, allowsKey := true }

/-- A closing bracket or brace. -/
def takeClose (s : Scan) (t : Token) : Except Failure Scan := do
  let s ← s.forget
  return { s.take 1 t with flow := s.flow - 1, allowsKey := false }

/-- A comma. -/
def takeComma (s : Scan) : Except Failure Scan := do
  let s ← s.forget
  return { s.take 1 .comma with allowsKey := true }

/-- The dash of an entry. -/
def takeEntry (s : Scan) : Except Failure Scan := do
  if s.flow = 0 && !s.allowsKey then badToken
  else
    let s := if s.flow = 0 then s.begin s.cursor.column s.tokens.length .sequenceStart else s
    let s ← s.forget
    return { s.take 1 .entry with allowsKey := true }

/-- The question mark of a key. -/
def takeKey (s : Scan) : Except Failure Scan := do
  if s.flow = 0 && !s.allowsKey then badToken
  else
    let s := if s.flow = 0 then s.begin s.cursor.column s.tokens.length .mappingStart else s
    let s ← s.forget
    return { s.take 1 .key with allowsKey := s.flow = 0 }

/-- The colon of a value. If a key may have begun on this level, it did. -/
def takeValue (s : Scan) : Except Failure Scan := do
  match s.marks.lookup s.flow with
  | some m =>
    let s := { s with
      marks := s.marks.filter (·.1 ≠ s.flow)
      tokens := s.tokens.take m.number ++ Token.key :: s.tokens.drop m.number }
    let s := if s.flow = 0 then s.begin m.column m.number .mappingStart else s
    return { s.take 1 .value with allowsKey := false }
  | none =>
    if s.flow = 0 && !s.allowsKey then badToken
    else
      let s := if s.flow = 0 then s.begin s.cursor.column s.tokens.length .mappingStart else s
      let s ← s.forget
      return { s.take 1 .value with allowsKey := s.flow = 0 }

/-- Whether a character may stand in the name of an anchor. -/
def isNameChar (c : Char) : Bool :=
  c.isAlphanum || c = '-' || c = '_'

/-- An anchor or a reference to one. -/
def takeName (s : Scan) (t : String → Token) : Except Failure Scan := do
  let s ← s.remember
  let (name, c) := s.cursor.next.span isNameChar
  if name.isEmpty || !(isGap c.peek || ['?', ':', ',', ']', '}', '%', '@', '\u0060'].contains c.peek) then badToken
  else return { s.push (t (String.ofList name)) with cursor := c, allowsKey := false }

/-- A tag. -/
def takeTag (s : Scan) : Except Failure Scan := do
  let s ← s.remember
  let (name, c) := s.cursor.span fun x => !isGap x && !(s.flow ≠ 0 && x = ',')
  return { s.push (.tag (String.ofList name)) with cursor := c, allowsKey := false }

/-- A block of lines. -/
def takeBlock (s : Scan) (isFolded : Bool) : Except Failure Scan := do
  let s ← s.forget
  let (text, c) ← blockText isFolded s.indent s.cursor
  return { s.push (.scalar (String.ofList text) false) with cursor := c, allowsKey := true }

/-- A scalar in quotes. -/
def takeQuoted (s : Scan) (double : Bool) : Except Failure Scan := do
  let s ← s.remember
  let (text, c) ← quotedText double s.cursor
  return { s.push (.scalar (String.ofList text) false) with cursor := c, allowsKey := false }

/-- A plain scalar. -/
def takePlain (s : Scan) : Except Failure Scan := do
  let s ← s.remember
  let (text, c, broken) := plainText (s.flow ≠ 0) (s.indent + 1) s.cursor
  return { s.push (.scalar (String.ofList text) true) with cursor := c, allowsKey := broken }

/-- Whether a plain scalar may begin here. -/
def atPlain (s : Scan) : Bool :=
  let x := s.cursor.peek
  let indicators : List Char :=
    ['-', '?', ':', ',', '[', ']', '{', '}', '#', '&', '*', '!', '|', '>', '\'', '"', '%', '@', '\u0060']
  !(isGap x || indicators.contains x) ||
    (!isGap (s.cursor.peek 1) && (x = '-' || (s.flow = 0 && (x = '?' || x = ':'))))

/-- The next token; the space in front of it has been skipped. -/
def takeToken (s : Scan) : Except Failure Scan :=
  let c := s.cursor
  let gapBehind := isGap (c.peek 1)
  if c.rest.isEmpty then s.takeEnd
  else if c.column = 0 && c.peek = '%' then s.takeDirective
  else if c.column = 0 && c.atMark ['-', '-', '-'] then s.takeMark .documentStart
  else if c.column = 0 && c.atMark ['.', '.', '.'] then s.takeMark .documentEnd
  else
    match c.peek with
    | '[' => s.takeOpen .openBracket
    | '{' => s.takeOpen .openBrace
    | ']' => s.takeClose .closeBracket
    | '}' => s.takeClose .closeBrace
    | ',' => s.takeComma
    | '*' => s.takeName .reference
    | '&' => s.takeName .anchor
    | '!' => s.takeTag
    | '\'' => s.takeQuoted false
    | '"' => s.takeQuoted true
    | x =>
      if x = '-' && gapBehind then s.takeEntry
      else if x = '?' && (s.flow ≠ 0 || gapBehind) then s.takeKey
      else if x = ':' && (s.flow ≠ 0 || gapBehind) then s.takeValue
      else if x = '|' && s.flow = 0 then s.takeBlock false
      else if x = '>' && s.flow = 0 then s.takeBlock true
      else if s.atPlain then s.takePlain
      else badToken

/-- The tokens up to the end of the text or to where it makes no sense; `fuel` bounds their number. -/
def run : Nat → Scan → List Token
  | 0, s => s.tokens ++ [.broken]
  | fuel + 1, s =>
    let spaced := skipSpace (s.cursor.left + 1) s
    match spaced.forgetOld with
    | .error _ => spaced.tokens ++ [.broken]
    | .ok t =>
      let u := t.unwind t.cursor.column
      match u.takeToken with
      | .error _ => u.tokens ++ [.broken]
      | .ok v => if u.cursor.rest.isEmpty then v.tokens else run fuel v

end Scan

/-- Whether a character may stand in structured text. -/
def isWritable (c : Char) : Bool :=
  c = '\t' || c = '\n' || c = '\r' || (' ' ≤ c && c ≤ '~') || c = '\u0085' ||
    (0xA0 ≤ c.toNat && c.toNat ≠ 0xFFFE && c.toNat ≠ 0xFFFF)

/-- The tokens of a text. -/
def tokens (text : String) : List Token :=
  let s := match text.toList with
    | '\uFEFF' :: s => s
    | s => s
  Scan.run (s.length + 1) { cursor := { rest := s } }

end HintQuality.Yaml
