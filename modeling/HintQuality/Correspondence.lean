import HintQuality.Align
import HintQuality.Increasing
import HintQuality.View
/-!
# Node correspondence

Which node of one tree, the start, each node of another one, the goal, is. The roots belong together; so do nodes whose
id occurs once in either tree; and the children of nodes that belong together are aligned by type and value, as far as
they are still alone. A node that belongs to another place than it stands in has moved: its parent is not its partner's
parent, or it does not keep its order among its siblings. Of those out of order as few as possible count as moved.
-/

namespace HintQuality

/-- Pairs of a goal node and a start node, the latest first. -/
abbrev Pairing (μ ν : Type) := List (μ × ν)

/-- The nodes that belong together, and those that moved. -/
structure Correspondence (μ ν : Type) where
  /-- Pairs of a goal node and its start node. -/
  pairs : Pairing μ ν
  /-- The goal nodes that moved. -/
  moved : List μ

variable {μ ν : Type} [DecidableEq μ] [DecidableEq ν]

namespace Pairing

/-- The start node of a goal node. -/
def partner? (ps : Pairing μ ν) (m : μ) : Option ν :=
  ps.lookup m

/-- Whether a start node has a partner. -/
def isTaken (ps : Pairing μ ν) (n : ν) : Bool :=
  ps.any (·.2 = n)

/-- The roots belong together. -/
def ofRoots (start : View ν) (goal : View μ) : Pairing μ ν :=
  [(goal.root, start.root)]

/-- Pairs a node below the root with the start node of the same id, if the id occurs once in either tree and that
node is not taken. -/
def pairById (start : View ν) (goal : View μ) (ps : Pairing μ ν) (m : μ) : Pairing μ ν :=
  match (goal.label m).id with
  | none => ps
  | some x =>
    match goal.withId x, start.withId x with
    | [_], [n] => if isTaken ps n then ps else (m, n) :: ps
    | _, _ => ps

/-- Pairs nodes by their ids. -/
def addIds (start : View ν) (goal : View μ) (ps : Pairing μ ν) : Pairing μ ν :=
  goal.descendants.foldl (pairById start goal) ps

/-- What siblings are aligned by. -/
def sameContent (start : View ν) (goal : View μ) (n : ν) (m : μ) : Bool :=
  (start.label n).type = (goal.label m).type && (start.label n).value = (goal.label m).value

/-- The pairs that a segment of aligned siblings gives: those that agree, and the renamed ones of a changed segment,
in order. Where a changed segment has as many old as new siblings all are renamed, else only those of one type. -/
def segmentPairs (start : View ν) (goal : View μ) : Segment ν μ → Pairing μ ν
  | .same pairs => pairs.map fun p => (p.2, p.1)
  | .changed old new =>
    ((old.zip new).filter fun p =>
      old.length = new.length || (start.label p.1).type = (goal.label p.2).type).map fun p => (p.2, p.1)

/-- The pairs among the children of a node and its partner that are still alone. -/
def childPairs (start : View ν) (goal : View μ) (ps : Pairing μ ν) (m : μ) (n : ν) : Pairing μ ν :=
  let startKids := (start.children n).filter fun c => !isTaken ps c
  let goalKids := (goal.children m).filter fun c => (partner? ps c).isNone
  (align (sameContent start goal) startKids goalKids).flatMap (segmentPairs start goal)

/-- Pairs the children of a node, if the node has a partner. -/
def pairChildren (start : View ν) (goal : View μ) (ps : Pairing μ ν) (m : μ) : Pairing μ ν :=
  match partner? ps m with
  | none => ps
  | some n => (childPairs start goal ps m n).reverse ++ ps

/-- Pairs nodes by their place, parents before children. -/
def addStructure (start : View ν) (goal : View μ) (ps : Pairing μ ν) : Pairing μ ν :=
  goal.nodes.foldl (pairChildren start goal) ps

/-- All pairs. -/
def of (start : View ν) (goal : View μ) : Pairing μ ν :=
  addStructure start goal (addIds start goal (ofRoots start goal))

/-! ## Moves -/

/-- Whether a node and its partner have parents that do not belong together. -/
def changedParent (start : View ν) (goal : View μ) (ps : Pairing μ ν) (m : μ) : Bool :=
  match partner? ps m with
  | none => false
  | some n =>
    match (goal.parent m).bind (partner? ps) with
    | none => true
    | some p => decide (start.parent n ≠ some p)

/-- The children of a node that have partners and did not change their parent, with the slot numbers that their
partners have below `n`. -/
def keptChildren (start : View ν) (goal : View μ) (ps : Pairing μ ν) (moved : List μ) (m : μ) (n : ν) :
    List (μ × Nat) :=
  (goal.children m).filterMap fun c =>
    if c ∈ moved then none else ((partner? ps c).bind (start.lastSlot? n)).map (c, ·)

/-- The kept children of a node that have to move for the others to be in their old order. -/
def outOfOrder (start : View ν) (goal : View μ) (ps : Pairing μ ν) (moved : List μ) (m : μ) : List μ :=
  match partner? ps m with
  | none => []
  | some n =>
    let kept := keptChildren start goal ps moved m n
    let stay := Increasing.longest (kept.map fun k => (k.2 : Int))
    (kept.zipIdx.filter fun k => k.2 ∉ stay).map fun k => k.1.1

/-- The nodes that moved: those whose parent changed, and then those out of order below each node. -/
def moves (start : View ν) (goal : View μ) (ps : Pairing μ ν) : List μ :=
  goal.nodes.foldl (fun moved m => moved ++ outOfOrder start goal ps moved m)
    (goal.descendants.filter (changedParent start goal ps))

end Pairing

/-- The correspondence between two trees. -/
def Correspondence.of (start : View ν) (goal : View μ) : Correspondence μ ν :=
  let pairs := Pairing.of start goal
  ⟨pairs, pairs.moves start goal⟩

namespace Correspondence

variable (c : Correspondence μ ν)

/-- The start node of a goal node. -/
def partner? (m : μ) : Option ν :=
  c.pairs.partner? m

/-- Whether a node that has a partner stands in another place than it. -/
def hasMoved (m : μ) : Bool :=
  m ∈ c.moved

/-- Every goal node in pre-order with its start node. -/
def table (goal : View μ) : List (μ × Option ν) :=
  goal.nodes.map fun m => (m, c.partner? m)

/-- Whether a goal node is new, moved, or of another type or value than its partner. -/
def isAdded (start : View ν) (goal : View μ) (m : μ) : Bool :=
  match c.partner? m with
  | none => true
  | some n => c.hasMoved m || (start.label n).type ≠ (goal.label m).type || (start.label n).value ≠ (goal.label m).value

/-- The goal nodes that are new, moved or changed, in pre-order. -/
def added (start : View ν) (goal : View μ) : List μ :=
  goal.nodes.filter (c.isAdded start goal)

end Correspondence

end HintQuality
