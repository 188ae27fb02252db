import HintQuality.Gold.Basic
import HintQuality.Json.Number
import HintQuality.Sheet.Library
import HintQuality.Text.Blank
import HintQuality.Trace
import HintQuality.Tree.Writer
/-!
# Gold standards as spreadsheets

One row per hint, the request tree only in the first row of a request. Each validity has a column that says whether
the hint is at least so valid; the column of the weakest one says whether it is no more than that. A row without a
request tree shares the one above.
-/

namespace HintQuality.GoldStandard

/-! ## Writing -/

/-- A truth value in a cell. -/
def flagText (b : Bool) : String :=
  if b then "TRUE" else "FALSE"

/-- Whether the column of a validity is set. -/
def flag (validity column : Validity) : Bool :=
  match column with
  | .noTutors => validity = .noTutors
  | c => validity.isAtLeast c

/-- The names of the columns. -/
def columns : List String :=
  ["assignmentID", "requestID", "year", "hintID"] ++ Validity.all.map Validity.name ++ ["priority", "from", "to"]

/-- The JSON text of a tree that a row needs. -/
def treeCell : Option Tree → Except Failure String
  | some t => .ok t.toJsonText
  | none => .error .noSuchAttribute

/-- The row of a hint, with or without its request tree. -/
def row (h : TutorHint) (withRequest : Bool) : Except Failure (List String) := do
  let start ← if withRequest then treeCell h.requestTree else .ok ""
  let goal ← treeCell h.result
  return [h.assignmentId, h.requestId, h.year, Text.intText h.hintId] ++
    (Validity.all.map fun v => flagText (flag h.validity v)) ++
    [(h.priority.map fun p => Text.natText p.toNat).getD "", start, goal]

/-- The rows of the hints for a request. -/
def requestRows (hints : List TutorHint) : Except Failure (List (List String)) :=
  hints.zipIdx.mapM fun p => row p.1 (p.2 = 0)

/-- A gold standard as a sheet. -/
def toSheet (g : GoldStandard) : Except Failure Sheet := do
  let rows ← g.requests.mapM fun r => requestRows (g.validHints r.1 r.2)
  return ⟨columns, rows.flatten⟩

/-- A gold standard as the text of a spreadsheet. -/
def toText (lib : TableLibrary) (g : GoldStandard) : Except Failure String :=
  g.toSheet.bind lib.write

/-! ## Reading -/

/-- The columns that a sheet must have, in the order in which they are looked for. -/
def requiredColumns : List String :=
  ["assignmentID", "requestID", "year", "hintID", "priority", "from", "to"] ++
    (Validity.all.filter (· ≠ .noTutors)).map Validity.name

/-- Whether a cell says yes. -/
def isTrue (cell : String) : Bool :=
  let word := String.ofList ((Text.trimBy Text.isBlank cell.toList).map Char.toUpper)
  word = "TRUE" || word = "1"

/-- The cell of a column; empty if there is no such column. -/
def cell (record : List (String × String)) (column : String) : String :=
  (record.lookup column).getD ""

/-- The strongest validity whose column is set. -/
def readValidity (record : List (String × String)) : Validity :=
  (Validity.all.filter fun v => ((record.lookup v.name).map isTrue).getD false).foldl Validity.max .noTutors

/-- The integer in a cell, which may be written as a decimal. -/
def readWhole (s : String) : Except Failure Int := do
  Json.wholePart (← Json.floatOfText s)

/-- A member by its number. -/
def memberOf {α : Type} (ofInt? : Int → Option α) (kind : String) (i : Int) : Except Failure α :=
  match ofInt? i with
  | some x => .ok x
  | none => .error (.noSuchMember (Text.intText i) kind)

/-- The priority in a cell, which may be blank. -/
def readPriority (s : String) : Except Failure (Option Priority) := do
  let s := Text.trim s
  if s.isEmpty then return none
  else return some (← memberOf Priority.ofInt? "Priority" (← readWhole s))

/-- A record as an object of texts. -/
def recordJson (record : List (String × String)) : Json :=
  .obj (record.map fun f => (f.1, .str f.2))

/-- The request tree of a row: its own or that of the row above. -/
def readRequest (above : Option Tree) (record : List (String × String)) : Traced Tree :=
  let text := cell record "from"
  if (Text.trim text).isEmpty then
    match above with
    | some t => pure t
    | none => Traced.fail (.unreadableTree .noRequestTree (.str (recordJson record).quoted))
  else Traced.parseTree (.str text)

/-- The hint of a row with the given request tree. -/
def readHint (start : Tree) (record : List (String × String)) : Traced TutorHint := do
  let priority ← Traced.lift (readPriority (cell record "priority"))
  let hintId ← Traced.lift (readWhole (cell record "hintID"))
  let goal ← Traced.parseTree (.str (cell record "to"))
  return {
    hintId := hintId
    requestId := cell record "requestID"
    assignmentId := cell record "assignmentID"
    year := cell record "year"
    requestTree := some start
    result := some goal
    validity := readValidity record
    priority := priority }

/-- The hints of rows below a row with the given request tree. -/
def readHints (above : Option Tree) : List (List (String × String)) → Traced (List TutorHint)
  | [] => pure []
  | record :: records => do
    let start ← readRequest above record
    let h ← readHint start record
    return h :: (← readHints (some start) records)

/-- Reads a gold standard from a sheet that was found at a path. -/
def ofSheet (path : String) (s : Sheet) : Traced GoldStandard := do
  match requiredColumns.find? (· ∉ s.columns) with
  | some column => Traced.fail (.missingColumn column path)
  | none =>
    let hints ← readHints none s.records
    Traced.log .info ("Parsed " ++ Text.natText hints.length ++ " tutor hints from " ++ path)
    return ⟨hints⟩

/-- Reads a gold standard from the text of a spreadsheet that was found at a path. -/
def ofText (lib : TableLibrary) (path text : String) : Traced GoldStandard := do
  ofSheet path (← Traced.lift (lib.read text))

end HintQuality.GoldStandard
