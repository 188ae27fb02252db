import HintQuality.Hint
import HintQuality.Outcome
import HintQuality.Weight
/-!
# Ratings

The verdict on an outcome: which tutor hint it matches, if any, and how closely. The ratings of a request are listed
in the order of the hints they match, unmatched ones last.
-/

namespace HintQuality

/-- How closely an outcome matches a tutor hint. -/
inductive MatchType where
  | unmatched
  | partialMatch
  | fullMatch
  deriving DecidableEq, Repr

namespace MatchType

/-- The number of a match type, the loosest first. -/
def toNat : MatchType → Nat
  | unmatched => 0
  | partialMatch => 1
  | fullMatch => 2

/-- All match types, the loosest first. -/
def all : List MatchType :=
  [unmatched, partialMatch, fullMatch]

/-- The match types that scores are given for. -/
def scored : List MatchType :=
  [fullMatch, partialMatch]

/-- The match type as it reads in tables. -/
def label : MatchType → String
  | unmatched => "None"
  | partialMatch => "Partial"
  | fullMatch => "Full"

/-- The name of a match type. -/
def name : MatchType → String
  | unmatched => "None_"
  | m => m.label

/-- The match type of a name. -/
def ofName? (s : String) : Option MatchType :=
  all.find? fun m => m.name = s

/-- Whether a match is at least as close as another one. -/
def isAtLeast (m n : MatchType) : Bool :=
  n.toNat ≤ m.toNat

end MatchType

/-- The verdict on an outcome. -/
structure Rating (ω : Type) where
  /-- The outcome. -/
  outcome : Outcome ω
  /-- The tutor hint that it matches, with its place among the hints of the request. -/
  candidate : Option Candidate := none
  /-- How closely it matches. -/
  matchType : MatchType := .unmatched

namespace Rating

variable {ω : Type}

/-- The hint that is matched. -/
def hint? (r : Rating ω) : Option TutorHint :=
  r.candidate.map Candidate.hint

/-- The validity of the matched hint. -/
def validity (r : Rating ω) : Validity :=
  (r.hint?.map TutorHint.validity).getD .noTutors

/-- The priority of the matched hint. -/
def priority (r : Rating ω) : Option Priority :=
  r.hint?.bind TutorHint.priority

/-- Whether the matched hint comes too soon. -/
def isTooSoon (r : Rating ω) : Bool :=
  (r.hint?.map TutorHint.isTooSoon).getD false

/-- Whether a rating is listed before another one, or at the same time. -/
def precedes (r s : Rating ω) : Bool :=
  match r.hint?, s.hint? with
  | some h, some g => h.precedes g
  | some _, none => true
  | none, some _ => false
  | none, none => true

/-- A rating in short. -/
def text (r : Rating Float) : String :=
  r.outcome.assignmentId ++ " / " ++ r.outcome.requestId ++ ": " ++ Decimal.floatText r.outcome.weight ++ " - " ++
    r.matchType.label

end Rating

/-- The ratings of all outcomes for one request. -/
structure RequestRating (ω : Type) where
  /-- The request. -/
  requestId : String
  /-- The assignment that it belongs to. -/
  assignmentId : String
  /-- The state of the program at the request, if it is known. -/
  requestTree : Option Tree
  /-- The policy. -/
  policy : Policy
  /-- The ratings. -/
  ratings : List (Rating ω)

/-- The ratings in the order of the hints that they match, unmatched ones last. -/
def RequestRating.sorted {ω : Type} (r : RequestRating ω) : RequestRating ω :=
  { r with ratings := sortBy Rating.precedes r.ratings }

/-- All that an algorithm is rated for. -/
structure RatingSet (ω : Type) where
  /-- The name of the algorithm. -/
  name : String
  /-- The ratings by request. -/
  requests : List (RequestRating ω)

namespace RatingSet

variable {ω : Type}

/-- The ratings of the requests of an assignment. -/
def forAssignment (s : RatingSet ω) (assignmentId : String) : List (RequestRating ω) :=
  s.requests.filter (·.assignmentId = assignmentId)

/-- The assignments that have ratings, sorted. -/
def assignmentIds (s : RatingSet ω) : List String :=
  sortedTexts (s.requests.map RequestRating.assignmentId)

end RatingSet

end HintQuality
