import HintQuality.Edit.Key
import HintQuality.Sorting
/-!
# Edits

The edits that turn a start into a goal. A node that is gone is deleted, a new one inserted, a changed one
renamed, and a moved one both deleted and inserted, the insertion naming where it came from. Edits are values, so the
edits of different trees can be compared as sets.
-/

namespace HintQuality

/-- An atomic change of a tree. -/
inductive Edit where
  /-- Adds a node below `parent`, behind the sibling `after`; `source` is the node it moves, if any. -/
  | insertion (label : Label) (relation : Option String) (parent after source : Option Key)
  /-- Removes a node. -/
  | deletion (key : Key) (type : String) (value : Option String)
  /-- Changes the label of a node; `ids` are the old and the new id where they differ. -/
  | rename (key : Key) (oldType : String) (oldValue : Option String) (newType : String) (newValue : Option String)
      (ids : Option (Option String × Option String))
  deriving DecidableEq, Repr

namespace Edit

/-- Whether an edit removes a node. -/
def isDeletion : Edit → Bool
  | deletion .. => true
  | _ => false

/-- An id in a change of ids. -/
def idText (x : Option String) : String :=
  x.getD "None"

/-- An edit in words. -/
def text : Edit → String
  | insertion label relation parent after source =>
    "Insert " ++ label.text ++ " at " ++ Key.optionText parent ++ "/" ++ relation.getD "None" ++
      (match after with
        | some k => " after " ++ k.text
        | none => "") ++
      (match source with
        | some k => " (moved from " ++ k.text ++ ")"
        | none => "")
  | deletion key type value => "Delete " ++ Label.text { type := type, value := value } ++ " " ++ key.text
  | rename key oldType oldValue newType newValue ids =>
    "Rename " ++ key.text ++ ": " ++ Label.text { type := oldType, value := oldValue } ++ " -> " ++
      Label.text { type := newType, value := newValue } ++
      (match ids with
        | some (old, new) => " (id " ++ idText old ++ " -> " ++ idText new ++ ")"
        | none => "")

end Edit

/-! ## Edits between trees -/

namespace Correspondence

variable {μ ν : Type} [DecidableEq μ] [DecidableEq ν] (c : Correspondence μ ν) (start : View ν) (goal : View μ)

/-- The deletion of a start node. -/
def deletionOf (n : ν) : Edit :=
  .deletion (start.key n) (start.label n).type (start.label n).value

/-- The insertion of a goal node, where `source` is the start node that it moves. -/
def insertionOf (m : μ) (source : Option ν) : Edit :=
  .insertion (goal.label m) (goal.relation? m) ((goal.parent m).map (c.goalKey start goal))
    ((goal.preceding? m).map (c.goalKey start goal)) (source.map start.key)

/-- The change from the label of a start node to the label of its partner. -/
def renameOf (n : ν) (m : μ) : Edit :=
  let old := start.label n
  let new := goal.label m
  .rename (start.key n) old.type old.value new.type new.value
    (if old.id ≠ new.id then some (old.id, new.id) else none)

/-- The edits that a goal node calls for. -/
def nodeEdits (m : μ) : List Edit :=
  match c.partner? m with
  | none => [c.insertionOf start goal m none]
  | some n =>
    if c.hasMoved m then [deletionOf start n, c.insertionOf start goal m (some n)]
    else if start.label n ≠ goal.label m then [renameOf start goal n m]
    else []

/-- The edits: the deletions of the start nodes without a partner, and those that the goal nodes call for. -/
def edits : List Edit :=
  ((start.nodes.filter fun n => !c.pairs.isTaken n).map (deletionOf start) ++
    goal.nodes.flatMap (c.nodeEdits start goal)).eraseDups

end Correspondence

/-- The edits that turn one tree into another, each once. -/
def View.edits {μ ν : Type} [DecidableEq μ] [DecidableEq ν] (start : View ν) (goal : View μ) : List Edit :=
  (Correspondence.of start goal).edits start goal

/-- The edits that turn one tree into another, each once. -/
def Tree.edits (start goal : Tree) : List Edit :=
  start.view.edits goal.view

/-! ## Comparing edits -/

namespace Edits

/-- The edits of `a` that `b` has too. -/
def inter (a b : List Edit) : List Edit :=
  a.filter (· ∈ b)

/-- The edits of `a` that `b` does not have. -/
def without (a b : List Edit) : List Edit :=
  a.filter (· ∉ b)

/-- Whether all edits of `a` are edits of `b`. -/
def isSubset (a b : List Edit) : Bool :=
  a.all (· ∈ b)

/-- The edits in the order of their texts. -/
def sorted (a : List Edit) : List Edit :=
  sortBy (fun x y => !(y.text < x.text)) a

/-- A titled list of edits in the order of their texts. -/
def paragraph (title : String) (edits : List Edit) : List String :=
  (title ++ ":") :: (sorted edits).map fun e => "  " ++ e.text

/-- What two sets of edits share and where they differ. -/
def comparison (a b : List Edit) (nameA nameB : String) : String :=
  "\n".intercalate (paragraph "Both" (inter a b) ++ paragraph ("Only " ++ nameA) (without a b) ++
    paragraph ("Only " ++ nameB) (without b a))

end Edits

end HintQuality
