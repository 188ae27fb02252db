import HintQuality.Diff
import HintQuality.Sorting
import HintQuality.Text.Digit
import HintQuality.Tree.Outline
import HintQuality.Policy
/-!
# Tutor hints

A hint that tutors agreed on: the state of a program when help was asked for, the state that the hint leads to, and
how valid and how urgent it is. Hints are tried by priority, those without one after the normal ones, and then by
validity, the strongest first.
-/

namespace HintQuality

/-- The difference of two trees as a diff of their outlines. -/
def Tree.diff (a b : Tree) (isBody : String → Bool) (context : Option Int := none) (style : ColorStyle := .none) :
    String :=
  HintQuality.diff (a.outline isBody) (b.outline isBody) context style

/-- The body types of a policy; none without a policy. -/
def bodyTypesOf : Option Policy → String → Bool
  | some p => p.isBodyType
  | none => fun _ => false

/-- A hint by tutors. -/
structure TutorHint where
  /-- The number of the hint. -/
  hintId : Int
  /-- The request for help that it answers. -/
  requestId : String
  /-- Who gave it. -/
  tutor : String := "consensus"
  /-- The assignment that the request belongs to. -/
  assignmentId : String
  /-- The year of the request. -/
  year : String
  /-- The state of the program at the request, if it is known. -/
  requestTree : Option Tree
  /-- The state that the hint leads to, if it is known. -/
  result : Option Tree
  /-- How many tutors endorsed it. -/
  validity : Validity := .noTutors
  /-- How urgent it is, if tutors said so. -/
  priority : Option Priority := none
  deriving Repr

namespace TutorHint

/-- The rank of a priority, in half steps: hints without one stand between normal and too soon. -/
def rankOf : Option Priority → Nat
  | some p => 2 * p.toNat
  | none => 7

/-- The rank of a hint, in half steps. -/
def rank (h : TutorHint) : Nat :=
  rankOf h.priority

/-- Whether a hint is tried before another one, or at the same time: by rank, then by validity. -/
def precedes (h g : TutorHint) : Bool :=
  h.rank < g.rank || (h.rank = g.rank && g.validity.toNat ≤ h.validity.toNat)

/-- Whether tutors would not show the hint yet. -/
def isTooSoon (h : TutorHint) : Bool :=
  h.priority = some .tooSoon

/-- The name of a priority, if there is one. -/
def priorityName (p : Option Priority) : String :=
  (p.map Priority.name).getD "None"

/-- A hint in short. -/
def text (h : TutorHint) : String :=
  "TutorHint(" ++ h.assignmentId ++ "/" ++ h.requestId ++ "#" ++ Text.intText h.hintId ++ ", validity=" ++
    h.validity.name ++ ", priority=" ++ priorityName h.priority ++ ")"

end TutorHint

/-- A hint with its place among the hints of a request. -/
structure Candidate where
  /-- The place. -/
  index : Nat
  /-- The hint. -/
  hint : TutorHint
  deriving Repr

/-- Hints with their places. -/
def candidates (hints : List TutorHint) : List Candidate :=
  hints.zipIdx.map fun p => ⟨p.2, p.1⟩

/-- Hints in the order in which they are tried; those that precede each other keep their order. -/
def sortHints (hints : List TutorHint) : List TutorHint :=
  sortBy TutorHint.precedes hints

/-- Hints with their places, in the order in which they are tried. -/
def sortCandidates (hints : List TutorHint) : List Candidate :=
  sortBy (fun a b => a.hint.precedes b.hint) (candidates hints)

end HintQuality
