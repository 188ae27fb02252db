import HintQuality.Rating.Listing
import HintQuality.Rating.Request
/-!
# Rating an algorithm

Every request of a gold standard is rated against the outcomes of one algorithm, assignment by assignment, and the
log and the events tell what happened.
-/

namespace HintQuality

/-- What to record while rating. -/
structure Recording where
  /-- Whether a report of each request goes to the log. -/
  debug : Bool := false
  /-- What every event carries; without it there are no events. -/
  context : Option Json.Fields := none

namespace Recording

/-- Records an event, if events are recorded. Its data is the context, overridden by its own. -/
def event (r : Recording) (type : String) (data : Json.Fields) : Traced Unit :=
  match r.context with
  | some context => Traced.event { type := type, data := context.putAll data }
  | none => pure ()

/-- The same recording with more to carry. -/
def bind (r : Recording) (data : Json.Fields) : Recording :=
  { r with context := r.context.map (·.putAll data) }

end Recording

/-- The fields of scores. -/
def scoreFields (table : List (List Float)) (full all : Float) : Json.Fields :=
  [("validity", tableJson table), ("priority_full", .float full), ("priority_partial", .float all)]

/-- Records a rated request. -/
def recordRequest (recording : Recording) (hints : List TutorHint) (r : RequestRating Float) : Traced Unit := do
  if r.ratings.isEmpty then
    recording.event "NoHintsGenerated" [("assignment_id", .str r.assignmentId), ("request_id", .str r.requestId)]
  if recording.debug then
    let report ← Traced.lift (r.report hints)
    Traced.log .info ("\n" ++ report)
  Traced.log .info r.summary
  recording.event "RequestRated"
    ([("assignment_id", .str r.assignmentId), ("request_id", .str r.requestId),
      ("outcomes", .int r.ratings.length)] ++
      scoreFields r.validityTable (r.priorityScore false) (r.priorityScore true))

/-- Records a request that is not rated. -/
def recordSkipped (recording : Recording) (assignmentId requestId : String) : Traced Unit := do
  Traced.log .debug ("Skipping " ++ assignmentId ++ "/" ++ requestId ++ ": no tutor hint is valid enough")
  recording.event "RequestSkipped" [("assignment_id", .str assignmentId), ("request_id", .str requestId)]

/-- Rates the requests of an assignment. -/
def rateRequests (recording : Recording) (standard : GoldStandard) (set : HintSet Float) (policy : Policy)
    (assignmentId : String) : List String → Traced (List (RequestRating Float))
  | [] => pure []
  | requestId :: requestIds => do
    let hints := standard.validHints assignmentId requestId
    match ← rateRequest assignmentId requestId hints (set.forRequest requestId) policy with
    | none =>
      recordSkipped recording assignmentId requestId
      rateRequests recording standard set policy assignmentId requestIds
    | some r =>
      recordRequest recording hints r
      return r :: (← rateRequests recording standard set policy assignmentId requestIds)

/-- Records the mean scores of an assignment, if any of its requests is rated. -/
def recordAssignment (recording : Recording) (s : RatingSet Float) (assignmentId : String) : Traced Unit :=
  match s.summary? assignmentId with
  | none => pure ()
  | some summary => do
    Traced.log .info summary
    recording.event "AssignmentSummary"
      (("assignment_id", .str assignmentId) ::
        scoreFields (s.validityMeans assignmentId) (s.priorityMean false assignmentId)
          (s.priorityMean true assignmentId))

/-- Rates the requests of all given assignments, after those rated before. -/
def rateAssignments (recording : Recording) (standard : GoldStandard) (set : HintSet Float) (policy : Policy) :
    List (RequestRating Float) → List String → Traced (List (RequestRating Float))
  | before, [] => pure before
  | before, assignmentId :: assignmentIds => do
    Traced.log .info ("----- " ++ assignmentId ++ " -----")
    recording.event "AssignmentStarted" [("assignment_id", .str assignmentId)]
    let ratings ← rateRequests recording standard set policy assignmentId (standard.requestIds assignmentId)
    let all := before ++ ratings
    recordAssignment recording ⟨set.name, all⟩ assignmentId
    rateAssignments recording standard set policy all assignmentIds

/-- Rates every request of a gold standard against the outcomes of an algorithm. -/
def rate (recording : Recording) (standard : GoldStandard) (set : HintSet Float) (policy : Policy) :
    Traced (RatingSet Float) := do
  let bound := recording.bind [("algorithm", .str set.name)]
  let requests ← rateAssignments bound standard set policy [] standard.assignmentIds
  return ⟨set.name, requests⟩

end HintQuality
