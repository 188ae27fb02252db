import HintQuality.Rating.Basic
/-!
# Scores

How good the outcomes for a request are: for each validity and closeness of match the share of the weight that is
matched at least so well, and the points of the matched priorities per weight. A request without any weight scores
zero everywhere.
-/

namespace HintQuality

variable {ω : Type} [Weight ω]

namespace RequestRating

variable (r : RequestRating ω)

/-- The weight of all outcomes. -/
def totalWeight : ω :=
  Weight.sum (r.ratings.map fun x => x.outcome.weight)

/-- Whether an outcome matches at least this well, a hint that does not come too soon. -/
def counts (matchType : MatchType) (validity : Validity) (x : Rating ω) : Bool :=
  x.matchType.isAtLeast matchType && x.validity.isAtLeast validity && !x.isTooSoon

/-- The weight of the outcomes that match at least this well. -/
def validityWeight (matchType : MatchType) (validity : Validity) : ω :=
  Weight.sum ((r.ratings.filter (counts matchType validity)).map fun x => x.outcome.weight)

/-- The number of the outcomes that match at least this well. -/
def validityCount (matchType : MatchType) (validity : Validity) : Nat :=
  (r.ratings.filter (counts matchType validity)).length

/-- The share of the weight that matches at least this well. -/
def validityShare (matchType : MatchType) (validity : Validity) : ω :=
  Weight.share (r.validityWeight matchType validity) r.totalWeight

/-- The shares by validity and, in each row, by closeness of match. -/
def validityTable : List (List ω) :=
  Validity.scored.map fun v => MatchType.scored.map fun m => r.validityShare m v

/-- The weighted points of a rating, if its hint has a priority and it matches closely enough. -/
def points? (countPartial : Bool) (x : Rating ω) : Option ω :=
  match x.priority with
  | some p => if countPartial || x.matchType = .fullMatch then some (x.outcome.weight * Weight.ofNat p.points) else none
  | none => none

/-- The points of the matched priorities per weight, with or without the partial matches. -/
def priorityScore (countPartial : Bool) : ω :=
  Weight.share (Weight.sum (r.ratings.filterMap (points? countPartial))) r.totalWeight

end RequestRating

namespace RatingSet

variable (s : RatingSet ω)

/-- The means of the shares over the requests of an assignment. -/
def validityMeans (assignmentId : String) : List (List ω) :=
  Validity.scored.map fun v => MatchType.scored.map fun m =>
    Weight.mean ((s.forAssignment assignmentId).map fun r => r.validityShare m v)

/-- The mean of the points over the requests of an assignment. -/
def priorityMean (countPartial : Bool) (assignmentId : String) : ω :=
  Weight.arrayMean ((s.forAssignment assignmentId).map fun r => r.priorityScore countPartial)

end RatingSet

/-! ## Summaries -/

/-- A row of shares, the looser one in parentheses. -/
def shareText (digits : Nat) : List Float → String
  | [x, y] => Decimal.fixedText digits x ++ " (" ++ Decimal.fixedText digits y ++ ")"
  | xs => ", ".intercalate (xs.map (Decimal.fixedText digits))

/-- A table of shares with a number of digits. -/
def tableText (digits : Nat) (table : List (List Float)) : String :=
  "[" ++ ", ".intercalate (table.map (shareText digits)) ++ "]v"

/-- Shares and points with a number of digits. -/
def scoresText (digits : Nat) (table : List (List Float)) (full all : Float) : String :=
  tableText digits table ++ " / " ++ shareText digits [full, all] ++ "p"

/-- The scores of a request. -/
def RequestRating.summary (r : RequestRating Float) : String :=
  r.requestId ++ ": " ++ scoresText 2 r.validityTable (r.priorityScore false) (r.priorityScore true)

/-- The mean scores of an assignment, if it has any ratings. -/
def RatingSet.summary? (s : RatingSet Float) (assignmentId : String) : Option String :=
  if (s.forAssignment assignmentId).isEmpty then none
  else
    some ("TOTAL: " ++ scoresText 3 (s.validityMeans assignmentId) (s.priorityMean false assignmentId)
      (s.priorityMean true assignmentId))

end HintQuality
