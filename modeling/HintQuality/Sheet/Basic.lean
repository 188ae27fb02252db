import HintQuality.Failure
/-!
# Sheets

Tables of text, with named columns, as comma separated text. A field is quoted if it holds a comma, a quote or a line
feed; a quote inside quotes is written twice. Reading takes line feeds, carriage returns and both as line ends, skips
blank lines and fills short rows up.
-/

namespace HintQuality

/-- A table with named columns. -/
structure Sheet where
  /-- The names of the columns. -/
  columns : List String
  /-- The rows, each with a text for every column. -/
  rows : List (List String)
  deriving DecidableEq, Repr

namespace Sheet

/-! ## Writing -/

/-- Whether a field has to be quoted. -/
def needsQuotes (cs : List Char) : Bool :=
  cs.any fun c => c = ',' || c = '"' || c = '\n'

/-- The inside of a quoted field. -/
def doubleQuotes (cs : List Char) : List Char :=
  cs.flatMap fun c => if c = '"' then ['"', '"'] else [c]

/-- A field of a row with others. -/
def fieldText (s : String) : String :=
  let cs := s.toList
  if needsQuotes cs then String.ofList ('"' :: doubleQuotes cs ++ ['"']) else s

/-- A row with its line end; a row that is one empty field is quoted, to differ from a blank line. -/
def rowText (fields : List String) : String :=
  if fields = [""] then "\"\"\n" else ",".intercalate (fields.map fieldText) ++ "\n"

/-- A sheet as text. -/
def toText (s : Sheet) : String :=
  String.join ((s.columns :: s.rows).map rowText)

/-! ## Reading -/

/-- Where reading stands within a row. -/
inductive State where
  /-- At the start of a field. -/
  | fieldStart
  /-- In a field without quotes, or behind the closing one. -/
  | plain
  /-- Between quotes. -/
  | quoted
  /-- Behind a quote that may be the closing one. -/
  | quoteSeen
  deriving DecidableEq, Repr

/-- The part of a row that has been read. -/
structure Partial where
  /-- The fields before the current one, last first. -/
  fields : List String := []
  /-- The characters of the current field, last first. -/
  current : List Char := []
  /-- Whether a quote has been seen in the row. -/
  sawQuote : Bool := false

/-- Ends the current field. -/
def Partial.endField (p : Partial) : Partial :=
  { p with fields := String.ofList p.current.reverse :: p.fields, current := [] }

/-- Adds a character to the current field. -/
def Partial.push (p : Partial) (c : Char) : Partial :=
  { p with current := c :: p.current }

/-- The row, unless it is a blank line. -/
def Partial.row? (p : Partial) : Option (List String) :=
  if p.fields.isEmpty && !p.sawQuote && p.current.all (fun c => c = ' ' || c = '\t') then none
  else some p.endField.fields.reverse

/-- Puts a row that is not blank in front of others. -/
def Partial.consTo (p : Partial) (rows : List (List String)) : List (List String) :=
  p.row?.toList ++ rows

/-- Reads rows; text that ends between quotes is malformed. -/
def readRows : State → Partial → List Char → Except Failure (List (List String))
  | .quoted, _, [] => .error .malformedSheet
  | _, p, [] => .ok (p.consTo [])
  | .quoted, p, c :: cs => if c = '"' then readRows .quoteSeen p cs else readRows .quoted (p.push c) cs
  | .quoteSeen, p, '"' :: cs => readRows .quoted (p.push '"') cs
  | .fieldStart, p, '"' :: cs => readRows .quoted { p with sawQuote := true } cs
  | _, p, '\r' :: '\n' :: cs => (readRows .fieldStart {} cs).map p.consTo
  | _, p, c :: cs =>
    if c = '\n' || c = '\r' then (readRows .fieldStart {} cs).map p.consTo
    else if c = ',' then readRows .fieldStart p.endField cs
    else readRows .plain (p.push c) cs

/-- The first of the names `s.n`, `s.(n+1)`, … that is not taken; `fuel` bounds the search. -/
def freeName (taken : List String) (s : String) : Nat → Nat → String
  | 0, n => s ++ "." ++ Text.natText n
  | fuel + 1, n =>
    let name := s ++ "." ++ Text.natText n
    if name ∈ taken then freeName taken s fuel (n + 1) else name

/-- Column names that differ: a name that comes again gets a number. -/
def distinctNames (all : List String) : List String → List String → List String
  | _, [] => []
  | before, s :: rest =>
    let name := if s ∈ before then freeName (before ++ all) s (before.length + all.length) 1 else s
    name :: distinctNames all (name :: before) rest

/-- The column names of a header; a column without a name is called after its place. -/
def columnNames (header : List String) : List String :=
  let named := header.zipIdx.map fun p => if p.1.isEmpty then "Unnamed: " ++ Text.natText p.2 else p.1
  distinctNames named [] named

/-- A row filled up to a width. -/
def fill (width : Nat) (row : List String) : List String :=
  row ++ List.replicate (width - row.length) ""

/-- A sheet from its rows. The first row after the header may be longer, and then all columns count from the right;
no later row may be longer than that. -/
def ofRows : List (List String) → Except Failure Sheet
  | [] => .error .emptySheet
  | [header] => .ok ⟨columnNames header, []⟩
  | header :: first :: rest =>
    let width := max header.length first.length
    if rest.any (width < ·.length) then .error .malformedSheet
    else
      let extra := width - header.length
      .ok ⟨columnNames header, (first :: rest).map fun row => (fill width row).drop extra⟩

/-- Reads a sheet; a byte order mark in front does not count. -/
def ofText (s : String) : Except Failure Sheet := do
  let cs := match s.toList with
    | '\uFEFF' :: cs => cs
    | cs => cs
  ofRows (← readRows .fieldStart {} cs)

/-- The rows by column. -/
def records (s : Sheet) : List (List (String × String)) :=
  s.rows.map s.columns.zip

end Sheet

end HintQuality
