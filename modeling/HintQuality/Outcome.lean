import HintQuality.Json.Number
import HintQuality.Sorting
import HintQuality.Tree.Writer
/-!
# Hint outcomes

What an algorithm suggests: the state that its hint leads to, and how much weight it puts on it. Outcomes without an
id of their own are numbered in the order in which they are read, so reading takes the next number and gives back the
one after.
-/

namespace HintQuality

/-- A suggestion of an algorithm, with weights in `ω`. -/
structure Outcome (ω : Type) where
  /-- The state that the hint leads to, if there is one. -/
  result : Option Tree
  /-- The assignment. -/
  assignmentId : String
  /-- The request that it answers. -/
  requestId : String
  /-- How much the algorithm favours it. -/
  weight : ω
  /-- What it is called. -/
  id : Json
  /-- What the algorithm has to say about it. -/
  properties : List (String × String) := []

namespace Outcome

/-- A required field. -/
def require (fields : Json.Fields) (name : String) : Except Failure Json :=
  match fields.get? name with
  | some v => .ok v
  | none => .error (.missingKey name)

/-- Properties from JSON; anything that counts as nothing is none. -/
def readProperties (v : Json) : Except Failure (List (String × String)) :=
  if v.isEmptyLike then .ok []
  else
    match v with
    | .obj fields => .ok (fields.map fun f => (f.1, f.2.display))
    | _ => .error .noSuchAttribute

/-- A weight that is not negative. -/
def checkWeight (w : Float) : Except Failure Float :=
  if w < 0.0 then .error (.negativeWeight (Decimal.floatText w)) else .ok w

/-- The id of an outcome and the next free number. -/
def takeId (fields : Json.Fields) (next : Nat) : Json × Nat :=
  match fields.given? "id" with
  | some v => (v, next)
  | none => (.int next, next + 1)

/-- The parts of an outcome other than its result. -/
def readRest (fields : Json.Fields) (result : Option Tree) (next : Nat) : Except Failure (Outcome Float × Nat) := do
  let assignment ← require fields "assignmentID"
  let request ← require fields "requestID"
  let weight ← ((fields.get? "weight").getD (.float 1.0)).toFloat
  let properties ← readProperties ((fields.get? "properties").getD .null)
  let (id, next) := takeId fields next
  let weight ← checkWeight weight
  return (⟨result, assignment.display, request.display, weight, id, properties⟩, next)

/-- Reads an outcome; also gives the next free number. -/
def ofJson (next : Nat) : Json → Except Failure (Outcome Float × Nat)
  | .obj fields => do
    let result ← Tree.parse (← require fields "result")
    readRest fields (some result) next
  | _ => .error .noSuchAttribute

/-- An outcome as JSON. -/
def toJson (o : Outcome Float) : Json :=
  .obj
    [("id", o.id),
     ("assignmentID", .str o.assignmentId),
     ("requestID", .str o.requestId),
     ("weight", .float o.weight),
     ("properties", .obj (o.properties.map fun p => (p.1, .str p.2))),
     ("result", (o.result.map Tree.toJson).getD .null)]

end Outcome

/-- The outcomes of one algorithm. -/
structure HintSet (ω : Type) where
  /-- The name of the algorithm. -/
  name : String
  /-- All outcomes, in the order in which they were read. -/
  outcomes : List (Outcome ω)

namespace HintSet

variable {ω : Type}

/-- The outcomes for a request, in order. -/
def forRequest (s : HintSet ω) (requestId : String) : List (Outcome ω) :=
  s.outcomes.filter (·.requestId = requestId)

/-- The requests that have outcomes, sorted. -/
def requestIds (s : HintSet ω) : List String :=
  sortedTexts (s.outcomes.map Outcome.requestId)

/-- The number of outcomes. -/
def size (s : HintSet ω) : Nat :=
  s.outcomes.length

end HintSet

end HintQuality
