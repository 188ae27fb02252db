import HintQuality.Edit.Basic
import HintQuality.Normalize
import HintQuality.Rating.Basic
/-!
# Matching outcomes with hints

An outcome matches a tutor hint fully if both have the same normal form, and partially if its edits, not only
deletions, are some of those of the hint. Hints are tried in order and the first match counts. Equal edits without
equal normal forms would contradict each other and are reported as a failure.
-/

namespace HintQuality

variable {ω : Type}

namespace Matching

/-- A tree that a comparison needs. -/
def need (t : Option Tree) : Except Failure Tree :=
  match t with
  | some t => .ok t
  | none => .error .noSuchAttribute

@[simp] theorem need_some (t : Tree) : need (some t) = pure t := rfl

/-! ## Full matches -/

/-- The report of trees that are equal where their normal forms are not: the change that they make to the request tree
of the hint, the two normal forms, and what normalizing made of each tree. -/
def discrepancy (policy : Policy) (style : ColorStyle) (request hintTree hintForm outcomeTree outcomeForm : Tree) :
    String :=
  "\n".intercalate
    ["Normalized nodes should be equal if nodes are equal!",
     "Matching hint:",
     request.diff outcomeTree policy.isBodyType none style,
     "Difference in normalized nodes:",
     hintForm.diff outcomeForm policy.isBodyType (some 2) style,
     "Tutor normalizing:",
     hintTree.diff hintForm policy.isBodyType (some 2) style,
     "Outcome normalizing:",
     outcomeTree.diff outcomeForm policy.isBodyType (some 2) style]

/-- The first hint whose normal form is that of the tree of an outcome. A hint with this very tree and another normal
form is reported as a failure. -/
def firstEqual (policy : Policy) (style : ColorStyle) (start outcomeTree : Tree) :
    List Candidate → Except Failure (Option Candidate)
  | [] => .ok none
  | c :: cs => do
    let outcomeForm := normalForm policy start outcomeTree
    let hintTree ← need c.hint.result
    let hintForm := normalForm policy start hintTree
    if outcomeForm = hintForm then return some c
    else if outcomeTree = hintTree then
      let request ← need c.hint.requestTree
      throw (.inconsistentRating (discrepancy policy style request hintTree hintForm outcomeTree outcomeForm))
    else firstEqual policy style start outcomeTree cs

/-- Equal trees have equal normal forms, so no hint is ever reported: it is taken or the next one is tried. -/
theorem firstEqual_cons {policy : Policy} {style : ColorStyle} {start t u : Tree} {c : Candidate}
    (hu : c.hint.result = some u) (cs : List Candidate) : firstEqual policy style start t (c :: cs) =
      if normalForm policy start t = normalForm policy start u then .ok (some c)
      else firstEqual policy style start t cs := by
  rw [firstEqual, hu, need_some, pure_bind]
  by_cases hform : normalForm policy start t = normalForm policy start u
  · rw [if_pos hform, if_pos hform]
    rfl
  · have hne : t ≠ u := fun h => hform (congrArg _ h)
    rw [if_neg hform, if_neg hform, if_neg hne]

/-- Only the normal form of the tree of an outcome matters. -/
theorem firstEqual_congr {policy : Policy} {style : ColorStyle} {start t t' : Tree}
    (h : normalForm policy start t = normalForm policy start t') :
    ∀ cs, firstEqual policy style start t cs = firstEqual policy style start t' cs
  | [] => rfl
  | c :: cs => by
    cases hu : c.hint.result with
    | none =>
      have herror : ∀ t, firstEqual policy style start t (c :: cs) = .error .noSuchAttribute := by
        intro t
        rw [firstEqual, hu]
        rfl
      rw [herror, herror]
    | some u => rw [firstEqual_cons hu, firstEqual_cons hu, h, firstEqual_congr h cs]

/-- The full match of an outcome, or nothing. Without any hints the outcome is unmatched. -/
def full (policy : Policy) (hints : List TutorHint) (outcome : Outcome ω) (style : ColorStyle := .none) :
    Except Failure (Option (Rating ω)) := do
  match hints with
  | [] => return some { outcome }
  | first :: _ =>
    let result ← need outcome.result
    let start ← need first.requestTree
    match ← firstEqual policy style start result (sortCandidates hints) with
    | some c => return some { outcome, candidate := some c, matchType := .fullMatch }
    | none => return none

/-! ## Partial matches -/

/-- What the edits of an outcome have to do with those of the hints. -/
inductive Overlap where
  /-- They are not among those of any hint. -/
  | nowhere
  /-- They are among those of a hint, but are only deletions. -/
  | deletionsOnly (c : Candidate)
  /-- They are among those of a hint. -/
  | within (c : Candidate)

/-- The report of edits that are equal where normal forms are not. -/
def contradiction (policy : Policy) (style : ColorStyle) (start hintTree outcomeTree : Tree)
    (hintEdits outcomeEdits : List Edit) : String :=
  "\n".intercalate
    ["Edits should not match if hint outcomes did not!",
     "Tutor hint:",
     start.diff hintTree policy.isBodyType none style,
     "Alg hint:",
     start.diff outcomeTree policy.isBodyType none style,
     Edits.comparison hintEdits outcomeEdits "Tutor Hint" "Alg Hint"]

/-- The first hint that has all the given edits, if any has. -/
def firstCover (policy : Policy) (style : ColorStyle) (start outcomeTree : Tree) (edits : List Edit) :
    List Candidate → Except Failure Overlap
  | [] => .ok .nowhere
  | c :: cs => do
    let hintTree := normalizeValues policy start (← need c.hint.result)
    let hintEdits := start.edits hintTree
    if hintEdits.isEmpty || !Edits.isSubset edits hintEdits then firstCover policy style start outcomeTree edits cs
    else if Edits.isSubset hintEdits edits then
      throw (.inconsistentRating (contradiction policy style start hintTree outcomeTree hintEdits edits))
    else if edits.all Edit.isDeletion then return .deletionsOnly c
    else return .within c

/-- What the edits of an outcome have to do with those of the hints. -/
def overlap (policy : Policy) (style : ColorStyle) (hints : List TutorHint) (outcome : Outcome ω) :
    Except Failure Overlap := do
  match hints with
  | [] => return .nowhere
  | first :: _ =>
    let result ← need outcome.result
    let start ← need first.requestTree
    let outcomeTree := normalizeValues policy start result
    let edits := start.edits outcomeTree
    if edits.isEmpty then return .nowhere else firstCover policy style start outcomeTree edits (sortCandidates hints)

/-- The verdict that an overlap gives. -/
def Overlap.rating (outcome : Outcome ω) : Overlap → Rating ω
  | within c => { outcome, candidate := some c, matchType := .partialMatch }
  | _ => { outcome }

/-- What the log says about an overlap. -/
def Overlap.remark (outcome : Outcome ω) : Overlap → Option String
  | deletionsOnly c =>
    some ("Deletion-only overlap for outcome " ++ outcome.id.display ++ " with tutor hint " ++
      Text.intText c.hint.hintId)
  | _ => none

/-- The partial match of an outcome, which is unmatched without one. -/
def partialMatch (policy : Policy) (style : ColorStyle) (hints : List TutorHint) (outcome : Outcome ω) :
    Except Failure (Rating ω) :=
  (overlap policy style hints outcome).map (Overlap.rating outcome)

end Matching

end HintQuality
