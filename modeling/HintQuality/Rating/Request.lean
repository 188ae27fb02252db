import HintQuality.Rating.Matching
import HintQuality.Trace
/-!
# Rating a request

All outcomes for a request get their verdicts: first every full match is settled, then the partial ones among the
rest, so that no outcome takes a hint by a partial match that another one matches fully. A request is rated only if
some hint for it is valid enough.
-/

namespace HintQuality

variable {ω : Type}

/-- Looks for the full match of each outcome: the ratings found, and the outcomes still without one. -/
def settleFull (policy : Policy) (hints : List TutorHint) :
    List (Outcome ω) → Except Failure (List (Rating ω) × List (Outcome ω))
  | [] => .ok ([], [])
  | o :: os => do
    let r ← Matching.full policy hints o
    let (ratings, rest) ← settleFull policy hints os
    match r with
    | some r => return (r :: ratings, rest)
    | none => return (ratings, o :: rest)

/-- The verdicts on outcomes without a full match. -/
def settlePartial (policy : Policy) (hints : List TutorHint) : List (Outcome ω) → Traced (List (Rating ω))
  | [] => pure []
  | o :: os => do
    let overlap ← Traced.lift (Matching.overlap policy .none hints o)
    (overlap.remark o).forM (Traced.log .debug)
    return overlap.rating o :: (← settlePartial policy hints os)

/-- Whether some hint is valid enough for the request to be rated. -/
def isRatable (policy : Policy) (hints : List TutorHint) : Bool :=
  hints.any fun h => h.validity.isAtLeast policy.requiredValidity

/-- Rates the outcomes for a request, if some hint for it is valid enough. -/
def rateRequest (assignmentId requestId : String) (hints : List TutorHint) (outcomes : List (Outcome ω))
    (policy : Policy) : Traced (Option (RequestRating ω)) := do
  if !isRatable policy hints then return none
  if outcomes.isEmpty then
    Traced.log .warning ("No hints generated for request " ++ assignmentId ++ "/" ++ requestId ++ ".")
  let (full, rest) ← Traced.lift (settleFull policy hints outcomes)
  let others ← settlePartial policy hints rest
  let rating : RequestRating ω :=
    { requestId := requestId
      assignmentId := assignmentId
      requestTree := hints.head?.bind TutorHint.requestTree
      policy := policy
      ratings := full ++ others }
  return some rating.sorted

end HintQuality
