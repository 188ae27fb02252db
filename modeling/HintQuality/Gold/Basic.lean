import HintQuality.Hint
/-!
# Gold standards

The hints that tutors agreed on, by assignment and request. Assignments and requests come in the order of their
names, and the hints of a request in the order in which they were given.
-/

namespace HintQuality

/-- A collection of tutor hints. -/
structure GoldStandard where
  /-- The hints, in the order in which they were given. -/
  hints : List TutorHint

namespace GoldStandard

/-- The assignments, sorted. -/
def assignmentIds (g : GoldStandard) : List String :=
  sortedTexts (g.hints.map TutorHint.assignmentId)

/-- The requests of an assignment, sorted. -/
def requestIds (g : GoldStandard) (assignmentId : String) : List String :=
  sortedTexts ((g.hints.filter (·.assignmentId = assignmentId)).map TutorHint.requestId)

/-- The hints for a request. -/
def validHints (g : GoldStandard) (assignmentId requestId : String) : List TutorHint :=
  g.hints.filter fun h => h.assignmentId = assignmentId && h.requestId = requestId

/-- The state of the program at a request, as its first hint has it. -/
def requestTree? (g : GoldStandard) (assignmentId requestId : String) : Option Tree :=
  (g.validHints assignmentId requestId).head?.bind TutorHint.requestTree

/-- All assignments and requests, in order. -/
def requests (g : GoldStandard) : List (String × String) :=
  g.assignmentIds.flatMap fun a => (g.requestIds a).map (a, ·)

/-- All hints, by assignment and request. -/
def allHints (g : GoldStandard) : List TutorHint :=
  g.requests.flatMap fun r => g.validHints r.1 r.2

/-- The number of hints. -/
def size (g : GoldStandard) : Nat :=
  g.allHints.length

/-- The hints of several standards together. -/
def merge (gs : List GoldStandard) : GoldStandard :=
  ⟨gs.flatMap allHints⟩

/-- The hints for one assignment. -/
def forAssignment (g : GoldStandard) (assignmentId : String) : GoldStandard :=
  ⟨g.allHints.filter (·.assignmentId = assignmentId)⟩

/-- The lines of a report about one request; none if its tree is not known. -/
def requestLines (g : GoldStandard) (isBody : String → Bool) (assignmentId requestId : String) : List String :=
  match g.requestTree? assignmentId requestId with
  | some t => [requestId, t.outline isBody, "----------------"]
  | none => []

/-- The states of the programs at all requests. -/
def report (g : GoldStandard) (isBody : String → Bool) : String :=
  "\n".intercalate (g.assignmentIds.flatMap fun a =>
    (" ============= " ++ a ++ " ============= ") :: (g.requestIds a).flatMap (g.requestLines isBody a))

end GoldStandard

end HintQuality
