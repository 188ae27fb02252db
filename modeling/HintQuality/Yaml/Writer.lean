import HintQuality.Decimal.Notation
import HintQuality.Text.Quoted
import HintQuality.Yaml.Cursor
import HintQuality.Yaml.Scalar
/-!
# Writing structured text

Values as lines: a field or an item on a line, what it holds below it, further to the right; the items of a list stand
right below the name of the list. Text is written plain where that reads back as the same text, in single quotes where
not, and in double quotes where single ones do not do.
-/

namespace HintQuality.Yaml

open Text (hex natText intText)

/-! ## Scalars -/

/-- A character that can be written as it is. -/
def isPlainChar (c : Char) : Bool :=
  c = '\n' || (' ' ≤ c && c ≤ '~') || c = '\u0085' ||
    (0xA0 ≤ c.toNat && c.toNat ≠ 0xFEFF && c.toNat ≠ 0xFFFE && c.toNat ≠ 0xFFFF && c.toNat < 0x10FFFF)

/-- A line break inside a scalar. -/
def isInnerBreak (c : Char) : Bool :=
  c = '\n' || c = '\u0085' || c = '\u2028' || c = '\u2029'

/-- The pairs of neighbours in a text. -/
def neighbours (s : List Char) : List (Char × Char) :=
  s.zip s.tail

/-- Whether a text that begins with `s` would begin with a mark if it were plain. -/
def beginsWithMark (s : List Char) : Bool :=
  let after := isGap ((s.tail.head?).getD '\x00')
  ['-', '-', '-'].isPrefixOf s || ['.', '.', '.'].isPrefixOf s ||
    match s.head? with
    | some c =>
      ['#', ',', '[', ']', '{', '}', '&', '*', '!', '|', '>', '\'', '"', '%', '@', '\u0060'].contains c ||
        ((c = '?' || c = ':' || c = '-') && after)
    | none => false

/-- Whether a text would hold a mark behind its first character if it were plain. -/
def holdsMark (s : List Char) : Bool :=
  (neighbours s).any (fun p => isGap p.1 && p.2 = '#') || (neighbours s).any (fun p => p.1 = ':' && isGap p.2) ||
    (s.length ≠ 1 && s.getLast? = some ':')

/-- Whether a text begins or ends with a space or a line break. -/
def hasLooseEnds (s : List Char) : Bool :=
  [s.head?, s.getLast?].any fun c => (c.map fun x => x = ' ' || isInnerBreak x).getD false

/-- Whether a text can be written plain as far as its characters go. -/
def canBePlain (s : List Char) : Bool :=
  s.all (fun c => isPlainChar c && !isInnerBreak c) && !hasLooseEnds s && !beginsWithMark s && !holdsMark s

/-- Whether a text can be written in single quotes. -/
def canBeSingle (s : List Char) : Bool :=
  s.all isPlainChar && !(neighbours s).any fun p => (p.1 = ' ' && isInnerBreak p.2) || (isInnerBreak p.1 && p.2 = ' ')

/-- The characters between single quotes: a quote is written twice, and a run of line breaks has one more than it
stands for. -/
def singleChars (afterBreak : Bool) : List Char → List Char
  | [] => []
  | c :: s =>
    (if c = '\'' then ['\'', '\''] else if c = '\n' && !afterBreak then ['\n', '\n'] else [c]) ++
      singleChars (isInnerBreak c) s

/-- What stands behind a backslash for a character. -/
def escapeOf (c : Char) : List Char :=
  let n := c.toNat
  match ([('\x00', '0'), ('\x07', 'a'), ('\x08', 'b'), ('\t', 't'), ('\n', 'n'), ('\x0b', 'v'), ('\x0c', 'f'),
      ('\r', 'r'), ('\x1b', 'e'), ('"', '"'), ('\\', '\\'), ('\u0085', 'N'), ('\u00a0', '_'), ('\u2028', 'L'),
      ('\u2029', 'P')] : List (Char × Char)).lookup c with
  | some x => ['\\', x]
  | none =>
    '\\' :: (if n ≤ 0xFF then 'x' :: (hex 2 n).map Char.toUpper
      else if n ≤ 0xFFFF then 'u' :: (hex 4 n).map Char.toUpper
      else 'U' :: (hex 8 n).map Char.toUpper)

/-- A character between double quotes. -/
def doubleChar (c : Char) : List Char :=
  let n := c.toNat
  if c = '"' || c = '\\' || c = '\u0085' || c = '\u2028' || c = '\u2029' || n = 0xFEFF then escapeOf c
  else if (' ' ≤ c && c ≤ '~') || (0xA0 ≤ n && n ≤ 0xFFFD) then [c]
  else escapeOf c

/-- A text as a scalar; a key has to stay on its line. -/
def scalarText (isKey : Bool) (s : String) : String :=
  let cs := s.toList
  let isMultiline := cs.any isInnerBreak
  if readsAsText .report s && canBePlain cs then s
  else if canBeSingle cs && !(isKey && isMultiline) then
    String.ofList ('\'' :: singleChars false cs ++ ['\''])
  else String.ofList ('"' :: cs.flatMap doubleChar ++ ['"'])

/-- A double as a scalar: a point is added in front of an exponent that has none. -/
def floatScalar (x : Float) : String :=
  if x.isNaN then ".nan"
  else if x.isInf then if x < 0.0 then "-.inf" else ".inf"
  else
    let s := (Decimal.floatText x).toList
    if s.contains '.' then String.ofList s
    else String.ofList (s.takeWhile (· ≠ 'e') ++ ['.', '0'] ++ s.dropWhile (· ≠ 'e'))

/-! ## Lines -/

/-- A line further to the right; a blank one stays blank. -/
def shifted (l : String) : String :=
  if l.isEmpty then l else "  " ++ l

/-- Lines behind a lead, all but the first further to the right. -/
def hang (lead : String) : List String → List String
  | [] => []
  | first :: rest => (lead ++ first) :: rest.map shifted

/-- The lines of a text. -/
def splitLines (s : String) : List String :=
  (Text.pieces '\n' s.toList).map String.ofList

/-- The tag of text, which counts as part of a key even where it is left out. -/
def textTag : String := "!!str"

/-- Whether a key can stand on one line with its colon. -/
def isSimpleKey (key : String) : Bool :=
  !key.isEmpty && textTag.length + key.length < 128 && !key.toList.any isInnerBreak

/-- The lines of a field from the lines of its value. -/
def fieldLines (key : String) (v : Json) (lines : List String) : List String :=
  if isSimpleKey key then
    let head := scalarText true key ++ ":"
    match v with
    | .obj (_ :: _) => head :: lines.map shifted
    | .arr (_ :: _) => head :: lines
    | _ => hang (head ++ " ") lines
  else hang "? " (splitLines (scalarText false key)) ++ hang ": " lines

mutual

/-- The lines of a value. -/
def blockLinesOf : Json → List String
  | .null => ["null"]
  | .bool true => ["true"]
  | .bool false => ["false"]
  | .int i => [intText i]
  | .float x => [floatScalar x]
  | .str s => splitLines (scalarText false s)
  | .arr [] => ["[]"]
  | .arr (v :: items) => itemLines (v :: items)
  | .obj [] => ["\x7b\x7d"]
  | .obj (f :: fields) => entryLines (f :: fields)

/-- The lines of items. -/
def itemLines : List Json → List String
  | [] => []
  | v :: items => hang "- " (blockLinesOf v) ++ itemLines items

/-- The lines of fields. -/
def entryLines : List (String × Json) → List String
  | [] => []
  | (k, v) :: fields => fieldLines k v (blockLinesOf v) ++ entryLines fields

end

/-- A value as structured text; a plain scalar by itself is followed by a mark of the end. -/
def render (v : Json) : String :=
  let lines := match v with
    | .str s => hang "" (splitLines (scalarText false s))
    | v => blockLinesOf v
  let isOpen := match v with
    | .null | .bool _ | .int _ | .float _ => true
    | .str s => scalarText false s = s
    | _ => false
  String.join ((lines ++ if isOpen then ["..."] else []).map (· ++ "\n"))

end HintQuality.Yaml
