import HintQuality.Gold.Basic
import HintQuality.Rating.Report
import HintQuality.Rating.Score
import HintQuality.Rating.Table
import HintQuality.Tree.Writer
/-!
# Ratings and hints as JSON

The JSON forms of tutor hints, of verdicts and of the scores behind them.
-/

namespace HintQuality

/-- A table of doubles as JSON. -/
def tableJson (table : List (List Float)) : Json :=
  .arr (table.map fun row => .arr (row.map .float))

/-- An optional tree as JSON. -/
def Tree.optionJson (t : Option Tree) : Json :=
  (t.map Tree.toJson).getD .null

/-- The key by which hints are sorted, as JSON: the rank in whole steps and the validity, strongest first. -/
def TutorHint.sortKey (h : TutorHint) : Json :=
  .arr [.float (Float.ofNat h.rank / 2.0), .int (-(h.validity.toNat : Int))]

/-- A tutor hint as JSON. -/
def TutorHint.toJson (h : TutorHint) : Json :=
  .obj [
    ("repr", .str h.text), ("sort_key", h.sortKey), ("too_soon", .bool h.isTooSoon), ("tutor", .str h.tutor),
    ("year", .str h.year), ("from", Tree.optionJson h.requestTree), ("to", Tree.optionJson h.result)]

/-- A gold standard as JSON: its hints in short. -/
def GoldStandard.toJson (g : GoldStandard) : Json :=
  .obj [("len", .int g.size), ("hints", .arr (g.allHints.map fun h => .str h.text))]

/-- A verdict as JSON. -/
def Rating.toJson (r : Rating Float) : Json :=
  .obj [
    ("outcome", r.outcome.id),
    ("weight", .float r.outcome.weight),
    ("match", (r.hint?.map fun h => Json.int h.hintId).getD .null),
    ("type", .str r.matchType.label),
    ("validity", .str r.validity.name),
    ("priority", (r.priority.map fun p => Json.str p.name).getD .null),
    ("too_soon", .bool r.isTooSoon),
    ("text", .str r.text)]

namespace RequestRating

/-- The verdicts for a request as JSON. -/
def verdicts (r : RequestRating Float) : Json :=
  .arr (r.ratings.map Rating.toJson)

/-- The weight and the number of the outcomes that match at least so well, by match type and validity. -/
def weights (r : RequestRating Float) : Json :=
  .obj (MatchType.all.map fun m => (m.label, .arr (Validity.all.map fun v =>
    .arr [.float (r.validityWeight m v), .float (Float.ofNat (r.validityCount m v))])))

/-- The verdicts for a request with their scores, as JSON fields. -/
def fields (r : RequestRating Float) (report : String) : Json.Fields :=
  [("request_id", .str r.requestId),
   ("assignment_id", .str r.assignmentId),
   ("ratings", r.verdicts),
   ("total_weight", .float r.totalWeight),
   ("validity_array", tableJson r.validityTable),
   ("priority_full", .float (r.priorityScore false)),
   ("priority_partial", .float (r.priorityScore true)),
   ("summary", .str r.summary),
   ("rating_row", .obj r.ratingRow.fields),
   ("report", .str report)]

end RequestRating

/-- The scores of an assignment as JSON fields. -/
def RatingSet.fields (s : RatingSet Float) (assignmentId : String) : Json.Fields :=
  [("requests", .arr ((s.forAssignment assignmentId).map fun r => .str r.requestId)),
   ("validity_means", tableJson (s.validityMeans assignmentId)),
   ("priority_means", .arr [.float (s.priorityMean false assignmentId), .float (s.priorityMean true assignmentId)]),
   ("summary", ((s.summary? assignmentId).map Json.str).getD .null)]

end HintQuality
