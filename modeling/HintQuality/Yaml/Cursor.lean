/-!
# Places in a text

A cursor is what is left of a text, with the line and the column that it begins at. Lines end at the line breaks that
structured text knows. Beyond the end stands the null character, which no such text contains.
-/

namespace HintQuality.Yaml

/-- A place in a text. -/
structure Cursor where
  /-- The text from there on. -/
  rest : List Char
  /-- The number of characters before. -/
  index : Nat := 0
  /-- The number of line breaks before. -/
  line : Nat := 0
  /-- The number of characters before on the line. -/
  column : Nat := 0

/-- A character that breaks lines. -/
def isBreak (c : Char) : Bool :=
  [0x0A, 0x0D, 0x85, 0x2028, 0x2029].contains c.toNat

/-- A character that may follow an indicator: blank, a line break or the end. -/
def isGap (c : Char) : Bool :=
  c = '\x00' || c = ' ' || c = '\t' || isBreak c

namespace Cursor

/-- The character `n` places ahead. -/
def peek (c : Cursor) (n : Nat := 0) : Char :=
  (c.rest[n]?).getD '\x00'

/-- The next place. -/
def next (c : Cursor) : Cursor :=
  match c.rest with
  | [] => c
  | x :: rest =>
    if isBreak x && !(x = '\r' && rest.head? = some '\n') then ⟨rest, c.index + 1, c.line + 1, 0⟩
    else if x = '\uFEFF' then ⟨rest, c.index + 1, c.line, c.column⟩
    else ⟨rest, c.index + 1, c.line, c.column + 1⟩

/-- The place `n` characters ahead. -/
def skip (c : Cursor) : Nat → Cursor
  | 0 => c
  | n + 1 => c.next.skip n

/-- The characters from here on that pass a test, and the place behind them. -/
def span (c : Cursor) (p : Char → Bool) : List Char × Cursor :=
  let s := c.rest.takeWhile p
  (s, c.skip s.length)

/-- A line break, as it counts in a text, and the place behind it. -/
def takeBreak? (c : Cursor) : Option (Char × Cursor) :=
  if c.peek = '\r' && c.peek 1 = '\n' then some ('\n', c.skip 2)
  else if c.rest.isEmpty || !isBreak c.peek then none
  else if c.peek = '\u2028' || c.peek = '\u2029' then some (c.peek, c.next)
  else some ('\n', c.next)

/-- Whether a mark between documents stands here. -/
def atMark (c : Cursor) (mark : List Char) : Bool :=
  mark.isPrefixOf c.rest && isGap (c.peek mark.length)

/-- Whether some mark between documents stands here. -/
def atSeparator (c : Cursor) : Bool :=
  c.atMark ['-', '-', '-'] || c.atMark ['.', '.', '.']

/-- The number of characters left. -/
def left (c : Cursor) : Nat :=
  c.rest.length

end Cursor

/-- Text that spaces between two parts of a scalar stand for: a break alone is a space, and of several breaks all but
the first remain. -/
def foldedBreaks (first : Char) (more : List Char) : List Char :=
  (if first ≠ '\n' then [first] else if more.isEmpty then [' '] else []) ++ more

end HintQuality.Yaml
