import HintQuality.Rating.Table
import HintQuality.Sheet.Library
import HintQuality.Trace
/-!
# Exported ratings

The ratings of an algorithm as sheets, one with a row per outcome and one with a row per request.
-/

namespace HintQuality.RatingSet

/-- The columns of whole numbers in the sheet of outcomes. -/
def wholeColumns : List String :=
  ["matchID", "validity", "priority"]

/-- The rows about outcomes. -/
def rows (s : RatingSet Float) (style : ColorStyle := .html) : List Json.Fields :=
  (s.requests.flatMap fun r => r.hintRows style).map HintRow.cells

/-- The sheet with a row per outcome. -/
def hintSheet (lib : TableLibrary) (s : RatingSet Float) (style : ColorStyle := .html) : Except Failure Sheet :=
  lib.table wholeColumns (s.rows style)

/-- The sheet with a row per request. -/
def ratingSheet (lib : TableLibrary) (s : RatingSet Float) : Except Failure Sheet :=
  lib.table [] (s.requests.map fun r => r.ratingRow.fields)

/-- The number of rows of the sheet of outcomes. -/
def hintRowCount {ω : Type} (s : RatingSet ω) : Nat :=
  s.requests.foldl (fun n r => n + max 1 r.ratings.length) 0

/-- Writes the sheet of outcomes. -/
def writeHints (lib : TableLibrary) (s : RatingSet Float) (path : String) : Traced Unit := do
  let sheet ← Traced.lift (s.hintSheet lib)
  Traced.emit (.write path (← Traced.lift (lib.write sheet)))
  Traced.log .info
    ("Wrote " ++ Text.natText s.hintRowCount ++ " hint rows for " ++ s.name ++ " to " ++ path)

end HintQuality.RatingSet
