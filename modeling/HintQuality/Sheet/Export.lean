import HintQuality.Json.Display
import HintQuality.Sheet.Basic
/-!
# Exported tables

Rows of values by column as a sheet. The columns are those of all rows in the order in which they first come up. A
column of numbers among which there is a double is a column of doubles; a column of whole numbers holds 64 bits.
-/

namespace HintQuality

namespace Export

/-- The text of a cell; nothing for null and for what is no number. -/
def cellText : Json → String
  | .null => ""
  | .float x => if x.isNaN then "" else Decimal.floatText x
  | v => v.display

/-- Whether a value is a double. -/
def isFloat : Json → Bool
  | .float _ => true
  | _ => false

/-- The integers among the cells of a column. -/
def ints (cells : List Json) : List Int :=
  cells.filterMap fun
    | .int i => some i
    | _ => none

/-- Whether a value is a number. -/
def isNumber : Json → Bool
  | .int _ | .float _ => true
  | _ => false

/-- The end of the integers of 64 bits with a sign. -/
def signedEnd : Int := 0x8000000000000000

/-- The end of the integers of 64 bits without a sign. -/
def unsignedEnd : Int := 0x10000000000000000

/-- Whether integers fit into one 64 bit type, signed or unsigned. -/
def fitTogether (is : List Int) : Bool :=
  is.all (fun i => -signedEnd ≤ i && i < unsignedEnd) && !(is.any (signedEnd ≤ ·) && is.any (· < 0))

/-- The cells of a column of any values, all of them doubles if they are numbers and one of them is a double. -/
def uniform (cells : List Json) : List Json :=
  if cells.all isNumber && cells.any isFloat && fitTogether (ints cells) then
    cells.map fun
      | .int i => .float (Decimal.ofInt i)
      | v => v
  else cells

/-- A whole number of a column with blanks, which passes through a double. -/
def throughFloat (i : Int) : Int :=
  (Decimal.Binary.ofFloat (Decimal.ofInt i)).truncate

/-- Whether an integer has 64 bits, with a sign. -/
def fits (i : Int) : Bool :=
  -signedEnd ≤ i && i < signedEnd

/-- The cells of a column of whole numbers and blanks. Numbers that do not fit are refused, and with blanks in the
column the others are rounded to 53 bits. -/
def whole (cells : List Json) : Except Failure (List Json) :=
  if (ints cells).all fits then
    .ok (if (ints cells).length = cells.length then cells
      else cells.map fun
        | .int i => .int (throughFloat i)
        | v => v)
  else if (ints (cells.takeWhile isNumber)).all (fun i => -signedEnd ≤ i && i < unsignedEnd) then .error .wrongType
  else .error .integerTooLarge

/-- The cells of a column; nothing where a row lacks it. -/
def column (rows : List Json.Fields) (name : String) : List Json :=
  rows.map fun r => (r.get? name).getD .null

/-- The names of all columns, in the order in which they first come up. -/
def columnNames (rows : List Json.Fields) : List String :=
  (rows.flatMap fun r => r.map Prod.fst).eraseDups

/-- The rows of a table given by its columns. -/
def transpose (n : Nat) (columns : List (List String)) : List (List String) :=
  (List.range n).map fun i => columns.map fun c => c.getD i ""

/-- Rows as a sheet; `wholeColumns` are the columns of whole numbers. -/
def sheet (wholeColumns : List String) (rows : List Json.Fields) : Except Failure Sheet := do
  let names := columnNames rows
  let columns ← names.mapM fun name =>
    if name ∈ wholeColumns then whole (column rows name) else .ok (uniform (column rows name))
  return ⟨names, transpose rows.length (columns.map (·.map cellText))⟩

end Export

end HintQuality
