import HintQuality.Sheet.Export
/-!
# Libraries for tables

Tables are written as text, read from text and made of rows of values by a library, whatever it is. What is relied on is
named here, for the table at hand: a sheet comes back from its text (`Returns`), and columns of whole numbers are
written or refused by their range and their blanks (`KeepsWhole`). The sheets of this development make up one such
library (`csv`).
-/

namespace HintQuality

/-- What a library does with tables. -/
structure TableLibrary where
  /-- Writes a sheet as text. -/
  write : Sheet → Except Failure String
  /-- Reads a sheet from text. -/
  read : String → Except Failure Sheet
  /-- Makes a sheet of rows of values by column, some of them columns of whole numbers. -/
  table : List String → List Json.Fields → Except Failure Sheet

namespace TableLibrary

/-- The library that the sheets of this development make up. -/
def csv : TableLibrary where
  write s := .ok s.toText
  read := Sheet.ofText
  table := Export.sheet

variable (lib : TableLibrary)

/-- All cells of a sheet come back unchanged from its text. -/
def Returns (s : Sheet) : Prop :=
  ∃ text, lib.write s = .ok text ∧ lib.read text = .ok s

/-- What becomes of columns of whole numbers and blanks. -/
structure KeepsWhole (wholeColumns : List String) (rows : List Json.Fields) : Prop where
  /-- Numbers of 64 bits are accepted, if next to blanks they pass through doubles unchanged. -/
  accepts : (∀ name ∈ wholeColumns, ∀ i, .int i ∈ Export.column rows name →
    Export.fits i = true ∧ (.null ∈ Export.column rows name → Export.throughFloat i = i)) →
    ∃ s, lib.table wholeColumns rows = .ok s
  /-- Numbers of more bits are refused. -/
  refuses : ∀ name ∈ wholeColumns, ∀ i, .int i ∈ Export.column rows name → Export.fits i = false →
    ∀ s, lib.table wholeColumns rows ≠ .ok s
  /-- A column without blanks is written as it is. -/
  full : ∀ name ∈ wholeColumns, .null ∉ Export.column rows name → ∀ s, lib.table wholeColumns rows = .ok s →
    s.records.map (·.lookup name) = (Export.column rows name).map fun v => some (Export.cellText v)
  /-- In a column with blanks the numbers pass through doubles. -/
  blank : ∀ name ∈ wholeColumns, .null ∈ Export.column rows name → ∀ s, lib.table wholeColumns rows = .ok s →
    s.records.map (·.lookup name) = (Export.column rows name).map fun
      | .int i => some (Export.cellText (.int (Export.throughFloat i)))
      | v => some (Export.cellText v)

end TableLibrary

end HintQuality
