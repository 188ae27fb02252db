import HintQuality.Gold.Basic
/-!
# Tutor hints in groups

A gold standard that is kept as a table of assignments, each with a table of its requests, each with its hints. Hints
are put in one after the other, and a table keeps its keys in the order in which they came first; the requests of an
assignment are sorted when all hints are in, the assignments whenever they are listed.
-/

namespace HintQuality

/-- Values by key, in the order in which the keys came. -/
abbrev Keyed (β : Type) := List (String × β)

namespace Keyed

variable {α β : Type}

/-- The keys, in order. -/
def keys (t : Keyed β) : List String :=
  t.map Prod.fst

/-- The value of a key; `d` if the key is not there. -/
def get (d : β) (t : Keyed β) (k : String) : β :=
  (t.lookup k).getD d

/-- Changes the value of a key. A key that is not there is put at the end, with `d` as the value to be changed. -/
def update (d : β) (f : β → β) : Keyed β → String → Keyed β
  | [], k => [(k, f d)]
  | (k', b) :: t, k => if k' = k then (k', f b) :: t else (k', b) :: update d f t k

/-- Puts elements into the values of their keys, one after the other. -/
def collect (key : α → String) (d : β) (put : β → α → β) (xs : List α) : Keyed β :=
  xs.foldl (fun t x => update d (put · x) t (key x)) []

/-- The same values, their keys sorted. -/
def sortKeys (d : β) (t : Keyed β) : Keyed β :=
  (sortedTexts t.keys).map fun k => (k, get d t k)

end Keyed

/-- Tutor hints by assignment and, for each, by request. -/
structure HintGroups where
  /-- The assignments, each with its requests. -/
  assignments : Keyed (Keyed (List TutorHint))

namespace HintGroups

/-- The groups of a list of hints. -/
def ofHints (hints : List TutorHint) : HintGroups :=
  let grouped := Keyed.collect TutorHint.assignmentId []
    (fun requests h => Keyed.update [] (· ++ [h]) requests h.requestId) hints
  ⟨grouped.map fun a => (a.1, Keyed.sortKeys [] a.2)⟩

variable (g : HintGroups)

/-- The assignments, sorted. -/
def assignmentIds : List String :=
  sortedTexts g.assignments.keys

/-- The requests of an assignment. -/
def requestIds (assignmentId : String) : List String :=
  Keyed.keys (Keyed.get [] g.assignments assignmentId)

/-- The hints for a request. -/
def validHints (assignmentId requestId : String) : List TutorHint :=
  Keyed.get [] (Keyed.get [] g.assignments assignmentId) requestId

/-- All hints, by assignment and request. -/
def allHints : List TutorHint :=
  g.assignmentIds.flatMap fun a => (g.requestIds a).flatMap fun r => g.validHints a r

end HintGroups

end HintQuality
