import HintQuality.Rating.Score
/-!
# Rating tables

The tables that a run exports: one row per outcome with its share of the weight and its verdict, and one row per
request with its scores. A request without outcomes keeps one row, for a placeholder.
-/

namespace HintQuality

/-- A row about an outcome. -/
structure HintRow (ω : Type) where
  assignmentId : String
  requestId : String
  /-- The id of the outcome. -/
  hintId : Json
  /-- The place among the ratings of the request. -/
  order : Nat
  weight : ω
  /-- The share of the weight of the request. -/
  weightNorm : ω
  /-- The number of the matched hint. -/
  matchId : Option Int
  validity : Option Validity
  priority : Option Priority
  matchType : MatchType
  /-- The tree, as JSON text. -/
  outcome : String
  /-- What the outcome changes. -/
  diff : String
  properties : List (String × String)

/-- A row about a request. -/
structure RatingRow (ω : Type) where
  assignmentId : String
  requestId : String
  /-- For each validity and closeness of match: the share of the weight, the weight, and the number of outcomes. -/
  cells : List (Validity × MatchType × ω × ω × Nat)
  totalWeight : ω
  totalCount : Nat

section

variable {ω : Type} [Weight ω]

/-- The row about an outcome. -/
def Rating.row (r : Rating ω) (order : Nat) (totalWeight : ω) (requestTree : Option Tree) (policy : Policy)
    (style : ColorStyle) : HintRow ω where
  assignmentId := r.outcome.assignmentId
  requestId := r.outcome.requestId
  hintId := r.outcome.id
  order := order
  weight := r.outcome.weight
  weightNorm := Weight.share r.outcome.weight totalWeight
  matchId := r.hint?.map TutorHint.hintId
  validity := r.hint?.map TutorHint.validity
  priority := r.priority
  matchType := r.matchType
  outcome := (r.outcome.result.map Tree.toJsonText).getD ""
  diff :=
    match r.outcome.result, requestTree with
    | some t, some start => start.diff t policy.isBodyType none style
    | _, _ => ""
  properties := r.outcome.properties

namespace RequestRating

variable (r : RequestRating ω)

/-- The rating that stands for a request without outcomes. -/
def placeholder : Rating ω where
  outcome :=
    { result := none
      assignmentId := r.assignmentId
      requestId := r.requestId
      weight := Weight.ofNat 1
      id := .int (-1) }

/-- The rows about the outcomes, in order. -/
def hintRows (style : ColorStyle) : List (HintRow ω) :=
  if r.ratings.isEmpty then [r.placeholder.row 0 (Weight.ofNat 1) r.requestTree r.policy style]
  else r.ratings.zipIdx.map fun x => x.1.row x.2 r.totalWeight r.requestTree r.policy style

/-- The row about the request. -/
def ratingRow : RatingRow ω where
  assignmentId := r.assignmentId
  requestId := r.requestId
  cells :=
    Validity.scored.flatMap fun v => MatchType.scored.map fun m =>
      (v, m, Weight.share (r.validityWeight m v) r.totalWeight, r.validityWeight m v, r.validityCount m v)
  totalWeight := r.totalWeight
  totalCount := r.ratings.length

end RequestRating

end

/-! ## Cells -/

/-- An optional number as JSON. -/
def optionalInt (i : Option Int) : Json :=
  (i.map Json.int).getD .null

section

variable {ω : Type} (number : ω → Json)

/-- A row about an outcome by columns, with a way to write weights. -/
def HintRow.columns (r : HintRow ω) : Json.Fields :=
  [("assignmentID", .str r.assignmentId),
   ("requestID", .str r.requestId),
   ("hintID", r.hintId),
   ("order", .int r.order),
   ("weight", number r.weight),
   ("weightNorm", number r.weightNorm),
   ("matchID", optionalInt r.matchId),
   ("validity", optionalInt (r.validity.map fun v => (v.toNat : Int))),
   ("priority", optionalInt (r.priority.map fun p => (p.toNat : Int))),
   ("type", .str r.matchType.label),
   ("outcome", .str r.outcome),
   ("diff", .str r.diff)] ++ r.properties.map fun p => ("p_" ++ p.1, .str p.2)

/-- The name of the columns of one validity and closeness of match. -/
def scoreColumn (v : Validity) (m : MatchType) : String :=
  v.name ++ "_" ++ m.label

/-- The columns of one validity and closeness of match. -/
def scoreColumns [Weight ω] : Validity × MatchType × ω × ω × Nat → Json.Fields
  | (v, m, share, weight, count) =>
    let column := scoreColumn v m
    [(column, number share), (column ++ "_validWeight", number weight),
     (column ++ "_validCount", number (Weight.ofNat count))]

/-- A row about a request by columns, with a way to write weights and counts. -/
def RatingRow.columns [Weight ω] (r : RatingRow ω) : Json.Fields :=
  [("assignmentID", .str r.assignmentId), ("requestID", .str r.requestId)] ++ r.cells.flatMap (scoreColumns number) ++
    [("totalWeight", number r.totalWeight), ("totalCount", .int r.totalCount)]

end

/-- A row about an outcome by columns. -/
def HintRow.cells (r : HintRow Float) : Json.Fields :=
  r.columns .float

/-- A row about a request by columns. -/
def RatingRow.fields (r : RatingRow Float) : Json.Fields :=
  r.columns .float

end HintQuality
