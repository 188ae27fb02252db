/-!
# Validity and priority

How many tutors endorsed a hint, and how urgently they would show it. Both are numbered, and validities compare by
their numbers.
-/

namespace HintQuality

/-- How many tutors endorsed a hint. -/
inductive Validity where
  | noTutors
  | oneTutor
  | multipleTutors
  | consensus
  deriving DecidableEq, Repr

namespace Validity

/-- The number of a validity. -/
def toNat : Validity → Nat
  | noTutors => 0
  | oneTutor => 1
  | multipleTutors => 2
  | consensus => 3

/-- All validities, weakest first. -/
def all : List Validity :=
  [noTutors, oneTutor, multipleTutors, consensus]

/-- The validities that scores are given for. -/
def scored : List Validity :=
  [oneTutor, multipleTutors, consensus]

/-- The name of a validity. -/
def name : Validity → String
  | noTutors => "NoTutors"
  | oneTutor => "OneTutor"
  | multipleTutors => "MultipleTutors"
  | consensus => "Consensus"

/-- The validity of a number. -/
def ofInt? (i : Int) : Option Validity :=
  all.find? fun v => (v.toNat : Int) = i

/-- The validity of a name. -/
def ofName? (s : String) : Option Validity :=
  all.find? fun v => v.name = s

/-- Whether a validity is at least as strong as another one. -/
def isAtLeast (v w : Validity) : Bool :=
  w.toNat ≤ v.toNat

/-- The stronger of two validities. -/
def max (v w : Validity) : Validity :=
  if v.isAtLeast w then v else w

end Validity

/-- How urgently tutors would show a hint. -/
inductive Priority where
  | highest
  | high
  | normal
  | tooSoon
  deriving DecidableEq, Repr

namespace Priority

/-- The number of a priority, the most urgent first. -/
def toNat : Priority → Nat
  | highest => 1
  | high => 2
  | normal => 3
  | tooSoon => 4

/-- All priorities, the most urgent first. -/
def all : List Priority :=
  [highest, high, normal, tooSoon]

/-- The name of a priority. -/
def name : Priority → String
  | highest => "Highest"
  | high => "High"
  | normal => "Normal"
  | tooSoon => "TooSoon"

/-- The priority of a number. -/
def ofInt? (i : Int) : Option Priority :=
  all.find? fun p => (p.toNat : Int) = i

/-- What matching a hint of a priority is worth. -/
def points : Priority → Nat
  | highest => 3
  | high => 2
  | normal => 1
  | tooSoon => 0

end Priority

end HintQuality
