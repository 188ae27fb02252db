import HintQuality.Validity
/-!
# Rating policies

What a language or an environment asks of a rating: which node types mean nothing without children, which are
attached to a new parent by the editor, which stand for bodies of statements, whether new numeric literals matter,
and how valid a tutor hint has to be for its request to be rated.
-/

namespace HintQuality

/-- A rating policy. -/
structure Policy where
  /-- The name of the policy. -/
  name : String := "default"
  /-- Node types that are trimmed when they have no children. -/
  trimIfChildlessTypes : List String := []
  /-- Node types that the editor attaches to a new parent. -/
  trimIfParentIsAddedTypes : List String := []
  /-- Whether new numeric literals keep their values. -/
  specificNumericLiterals : Bool := false
  /-- The validity that some hint of a request must have for the request to be rated. -/
  requiredValidity : Validity := .multipleTutors
  /-- Node types whose children stand on lines of their own. -/
  bodyTypes : List String := []
  deriving DecidableEq, Repr

namespace Policy

/-- Whether nodes of a type are trimmed when they have no children. -/
def trimIfChildless (p : Policy) (type : String) : Bool :=
  type ∈ p.trimIfChildlessTypes

/-- Whether nodes of a type are attached to a new parent by the editor. -/
def trimIfParentIsAdded (p : Policy) (type : String) : Bool :=
  type ∈ p.trimIfParentIsAddedTypes

/-- Whether the children of nodes of a type stand on lines of their own. -/
def isBodyType (p : Policy) (type : String) : Bool :=
  type ∈ p.bodyTypes

end Policy

end HintQuality
