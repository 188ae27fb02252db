import HintQuality.Rating.Basic
/-!
# Rating reports

The ratings of a request for people to read: the outcomes by closeness of match, those that come too soon last, and
the hints that were missed.
-/

namespace HintQuality

/-- What an outcome changes, without colours. -/
def Outcome.changeText {ω : Type} (o : Outcome ω) (start : Tree) (isBody : String → Bool)
    (style : ColorStyle := .none) : String :=
  match o.result with
  | some t => start.diff t isBody none style
  | none => ""

namespace RequestRating

variable (r : RequestRating Float)

/-- The lines about one rating. -/
def ratingLines (start : Tree) (x : Rating Float) : List String :=
  ["Hint ID: " ++ x.outcome.id.display,
   "Weight: " ++ Decimal.floatText x.outcome.weight,
   x.outcome.changeText start r.policy.isBodyType,
   "-------"]

/-- The lines about a group of ratings; none about an empty group. -/
def groupLines (start : Tree) (title : String) (group : List (Rating Float)) : List String :=
  if group.isEmpty then []
  else ("               === " ++ title ++ " ===") :: group.flatMap (r.ratingLines start)

/-- The ratings by closeness of match, the closest first, and those that come too soon last. -/
def groups : List (String × List (Rating Float)) :=
  (MatchType.all.reverse.map fun m => (m.label, r.ratings.filter fun x => x.matchType = m && !x.isTooSoon)) ++
    [("Too Soon", r.ratings.filter Rating.isTooSoon)]

/-- The hints that several tutors endorsed and no outcome matches. -/
def missed (hints : List TutorHint) : List TutorHint :=
  let hit := r.ratings.filterMap fun x => x.candidate.map Candidate.index
  ((candidates hints).filter fun c =>
    c.hint.validity.isAtLeast .multipleTutors && !c.hint.isTooSoon && c.index ∉ hit).map Candidate.hint

/-- The line about the missed hints, if there are any. -/
def missedLines (hints : List TutorHint) : List String :=
  if (r.missed hints).isEmpty then []
  else ["Missed tutor hints: " ++ ", ".intercalate ((r.missed hints).map fun h => Text.intText h.hintId)]

/-- The report about a request; empty if there are no ratings. -/
def report (hints : List TutorHint) : Except Failure String :=
  if r.ratings.isEmpty then .ok ""
  else
    match r.requestTree with
    | none => .error .noSuchAttribute
    | some start =>
      .ok ("\n".intercalate
        (("+====+ " ++ r.assignmentId ++ " / " ++ r.requestId ++ " +====+") ::
          start.outline r.policy.isBodyType ::
          (r.groups.flatMap fun g => r.groupLines start g.1 g.2) ++ r.missedLines hints))

end RequestRating

end HintQuality
