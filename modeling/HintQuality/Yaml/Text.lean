import HintQuality.Failure
import HintQuality.Yaml.Cursor
/-!
# Scalars in structured text

The text of a scalar as it is written: plain, in single or double quotes, or as a block of lines. A line break inside
a plain or quoted scalar counts as a space, and an empty line as a line break. Every function gives the text and the
place behind it.
-/

namespace HintQuality.Yaml

/-- What makes the text of a document unreadable at a place. -/
def badToken {α : Type} : Except Failure α :=
  .error (.malformedSettings .badToken)

/-! ## Plain scalars -/

/-- The line breaks and the spaces between them, where `fuel` bounds their number; also whether a mark between
documents ended them. -/
def plainBreaks : Nat → Cursor → List Char × Cursor × Bool
  | 0, c => ([], c, false)
  | fuel + 1, c =>
    if c.peek = ' ' then plainBreaks fuel c.next
    else
      match c.takeBreak? with
      | none => ([], c, false)
      | some (b, c) =>
        if c.atSeparator then ([], c, true)
        else
          let (bs, c, stop) := plainBreaks fuel c
          (b :: bs, c, stop)

/-- The spaces behind a part of a plain scalar, and whether there is a line break among them. -/
def plainSpaces (c : Cursor) : List Char × Cursor × Bool :=
  let (blanks, c) := c.span (· = ' ')
  match c.takeBreak? with
  | none => (blanks, c, false)
  | some (b, c) =>
    if c.atSeparator then ([], c, true)
    else
      let (bs, c, stop) := plainBreaks c.left c
      (if stop then [] else foldedBreaks b bs, c, true)

/-- The number of characters up to the end of a part of a plain scalar. -/
def plainLength (inFlow : Bool) : List Char → Nat
  | [] => 0
  | x :: rest =>
    let after := (rest.head?).getD '\x00'
    if isGap x || (x = ':' && (isGap after || (inFlow && [',', '[', ']', '{', '}'].contains after))) ||
      (inFlow && [',', '?', '[', ']', '{', '}'].contains x) then 0
    else plainLength inFlow rest + 1

/-- The parts of a plain scalar, after `spaces`; also whether a line break comes after the last part. -/
def plainParts (inFlow : Bool) (indent : Int) : Nat → List Char → Bool → Cursor → List Char × Cursor × Bool
  | 0, _, broken, c => ([], c, broken)
  | fuel + 1, spaces, broken, c =>
    let n := plainLength inFlow c.rest
    if c.peek = '#' || n = 0 then ([], c, broken)
    else
      let part := spaces ++ c.rest.take n
      let (spaces, c, broken) := plainSpaces (c.skip n)
      if spaces.isEmpty || c.peek = '#' || (!inFlow && (c.column : Int) < indent) then (part, c, broken)
      else
        let (rest, c, broken) := plainParts inFlow indent fuel spaces broken c
        (part ++ rest, c, broken)

/-- A plain scalar, and whether a line break comes behind it. -/
def plainText (inFlow : Bool) (indent : Int) (c : Cursor) : List Char × Cursor × Bool :=
  plainParts inFlow indent (c.left + 1) [] false c

/-! ## Quoted scalars -/

/-- The line breaks and the blanks between them. -/
def quotedBreaks : Nat → Cursor → Except Failure (List Char × Cursor)
  | 0, c => .ok ([], c)
  | fuel + 1, c =>
    if c.atSeparator then badToken
    else
      let (_, c) := c.span fun x => x = ' ' || x = '\t'
      match c.takeBreak? with
      | none => .ok ([], c)
      | some (b, c) => (quotedBreaks fuel c).map fun r => (b :: r.1, r.2)

/-- The blanks between two parts of a quoted scalar. -/
def quotedSpaces (c : Cursor) : Except Failure (List Char × Cursor) :=
  let (blanks, c) := c.span fun x => x = ' ' || x = '\t'
  if c.rest.isEmpty then badToken
  else
    match c.takeBreak? with
    | none => .ok (blanks, c)
    | some (b, c) => (quotedBreaks (c.left + 1) c).map fun r => (foldedBreaks b r.1, r.2)

/-- What the letters behind a backslash stand for. -/
def escapes : List (Char × Char) :=
  [('0', '\x00'), ('a', '\x07'), ('b', '\x08'), ('t', '\t'), ('\t', '\t'), ('n', '\n'), ('v', '\x0b'), ('f', '\x0c'),
   ('r', '\r'), ('e', '\x1b'), (' ', ' '), ('"', '"'), ('\\', '\\'), ('/', '/'), ('N', '\u0085'), ('_', '\u00a0'),
   ('L', '\u2028'), ('P', '\u2029')]

/-- The number of hexadecimal digits behind a letter behind a backslash. -/
def escapeLength : Char → Option Nat
  | 'x' => some 2
  | 'u' => some 4
  | 'U' => some 8
  | _ => none

/-- The value of hexadecimal digits. -/
def hexNumber? (s : List Char) : Option Nat :=
  s.foldl (fun n c => n.bind fun n => (Text.hexDigit? c).map (16 * n + ·)) (some 0)

/-- What stands behind a backslash. -/
def escapeText (c : Cursor) : Except Failure (List Char × Cursor) :=
  match escapes.lookup c.peek, escapeLength c.peek with
  | some x, _ => if c.rest.isEmpty then badToken else .ok ([x], c.next)
  | none, some n =>
    let digits := c.next.rest.take n
    match hexNumber? digits with
    | some v => if digits.length = n then .ok ([Char.ofNat v], c.next.skip n) else badToken
    | none => badToken
  | none, none =>
    match c.takeBreak? with
    | some (_, c) => quotedBreaks (c.left + 1) c
    | none => badToken

/-- The characters of a quoted scalar up to a blank or a quote. -/
def quotedPart (double : Bool) : Nat → Cursor → Except Failure (List Char × Cursor)
  | 0, c => .ok ([], c)
  | fuel + 1, c =>
    let more (s : List Char) (c : Cursor) := (quotedPart double fuel c).map fun r => (s ++ r.1, r.2)
    let x := c.peek
    if c.rest.isEmpty || isGap x then .ok ([], c)
    else if x = '\'' then
      if double then more [x] c.next
      else if c.peek 1 = '\'' then more [x] (c.skip 2)
      else .ok ([], c)
    else if x = '"' then if double then .ok ([], c) else more [x] c.next
    else if x = '\\' && double then do
      let (s, c) ← escapeText c.next
      more s c
    else more [x] c.next

/-- The rest of a quoted scalar behind a part of it. -/
def quotedParts (double : Bool) : Nat → Cursor → Except Failure (List Char × Cursor)
  | 0, _ => badToken
  | fuel + 1, c =>
    if c.peek = (if double then '"' else '\'') && !c.rest.isEmpty then .ok ([], c.next)
    else do
      let (spaces, c) ← quotedSpaces c
      let (part, c) ← quotedPart double (c.left + 1) c
      let (rest, c) ← quotedParts double fuel c
      return (spaces ++ part ++ rest, c)

/-- A scalar in single or double quotes. -/
def quotedText (double : Bool) (c : Cursor) : Except Failure (List Char × Cursor) := do
  let c := c.next
  let (part, c) ← quotedPart double (c.left + 1) c
  let (rest, c) ← quotedParts double (c.left + 2) c
  return (part ++ rest, c)

/-! ## Blocks of lines -/

/-- How a block ends: with one line break, with all of them, or with none. -/
inductive Chomp where
  | clip
  | keep
  | strip
  deriving DecidableEq, Repr

/-- The signs in the header of a block: how it ends, and how far it is indented if that is said. -/
def blockHeader (c : Cursor) : Except Failure (Chomp × Option Nat × Cursor) :=
  let chompOf (x : Char) : Option Chomp := if x = '+' then some .keep else if x = '-' then some .strip else none
  let digitOf (x : Char) : Option Nat := if '1' ≤ x && x ≤ '9' then some (x.toNat - 48) else none
  match chompOf c.peek, digitOf c.peek with
  | some k, _ =>
    match digitOf c.next.peek with
    | some d => .ok (k, some d, c.skip 2)
    | none => if c.next.peek = '0' then badToken else .ok (k, none, c.next)
  | none, some d =>
    match chompOf c.next.peek with
    | some k => .ok (k, some d, c.skip 2)
    | none => .ok (.clip, some d, c.next)
  | none, none => if c.peek = '0' then badToken else .ok (.clip, none, c)

/-- The end of the line of a header, with a comment or without. -/
def headerEnd (c : Cursor) : Except Failure Cursor :=
  let (_, c) := c.span (· = ' ')
  let (_, c) := if c.peek = '#' then c.span fun x => !isBreak x else ([], c)
  match c.takeBreak? with
  | some (_, c) => .ok c
  | none => if c.rest.isEmpty then .ok c else badToken

/-- Leading line breaks, and the greatest indentation among them. -/
def blockIndentation : Nat → Nat → Cursor → List Char × Nat × Cursor
  | 0, most, c => ([], most, c)
  | fuel + 1, most, c =>
    if c.peek = ' ' then blockIndentation fuel (max most c.next.column) c.next
    else
      match c.takeBreak? with
      | some (b, c) =>
        let (bs, most, c) := blockIndentation fuel most c
        (b :: bs, most, c)
      | none => ([], most, c)

/-- Skips spaces up to a column. -/
def skipTo (column : Nat) : Nat → Cursor → Cursor
  | 0, c => c
  | fuel + 1, c => if c.column < column && c.peek = ' ' then skipTo column fuel c.next else c

/-- Line breaks between the lines of a block, up to the indentation of the next line. -/
def blockBreaks (indent : Nat) : Nat → Cursor → List Char × Cursor
  | 0, c => ([], c)
  | fuel + 1, c =>
    let c := skipTo indent c.left c
    match c.takeBreak? with
    | some (b, c) =>
      let (bs, c) := blockBreaks indent fuel c
      (b :: bs, c)
    | none => ([], c)

/-- Whether a line of a block keeps its line breaks even if lines are folded. -/
def isSpaced (c : Cursor) : Bool :=
  c.peek = ' ' || c.peek = '\t'

/-- What stands between two lines of a block. -/
def betweenLines (isFolded : Bool) (first : Option Char) (spaced : Bool) (breaks : List Char) (next : Cursor) :
    List Char :=
  match first with
  | none => breaks
  | some b =>
    if isFolded && b = '\n' && !spaced && !isSpaced next then (if breaks.isEmpty then [' '] else []) ++ breaks
    else b :: breaks

/-- The lines of a block, and the line breaks behind the last one. -/
def blockLines (isFolded : Bool) (indent : Nat) :
    Nat → Option Char → Bool → List Char → Cursor → List Char × Option Char × List Char × Cursor
  | 0, first, _, breaks, c => ([], first, breaks, c)
  | fuel + 1, first, spaced, breaks, c =>
    if c.column ≠ indent || c.rest.isEmpty then ([], first, breaks, c)
    else
      let lead := betweenLines isFolded first spaced breaks c
      let nowSpaced := isSpaced c
      let (text, c) := c.span fun x => !isBreak x
      let (b, c) := match c.takeBreak? with
        | some (b, c) => (some b, c)
        | none => (none, c)
      let (more, c) := blockBreaks indent (c.left + 1) c
      let (rest, last, tail, c) := blockLines isFolded indent fuel b nowSpaced more c
      (lead ++ text ++ rest, last, tail, c)

/-- A block of lines, literal or folded, in a node that is indented by `indent`. -/
def blockText (isFolded : Bool) (indent : Int) (c : Cursor) : Except Failure (List Char × Cursor) := do
  let (chomp, given, c) ← blockHeader c.next
  let c ← headerEnd c
  let least := (max (indent + 1) 1).toNat
  let (lead, column, c) := match given with
    | some d =>
      let column := least + d - 1
      let (bs, c) := blockBreaks column (c.left + 1) c
      (bs, column, c)
    | none =>
      let (bs, most, c) := blockIndentation (c.left + 1) 0 c
      (bs, max least most, c)
  let (text, last, tail, c) := blockLines isFolded column (c.left + 1) none false lead c
  let ending := if text.isEmpty && last.isNone then [] else last.toList
  return (text ++ (match chomp with
    | .strip => []
    | .clip => ending
    | .keep => ending ++ tail), c)

end HintQuality.Yaml
