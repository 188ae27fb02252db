import HintQuality.Tree.Basic
/-!
# Views of trees

What comparing trees needs to see of them: their nodes in pre-order, and for each node its label, slots, parent and
way from the root. Nodes are names, so a view can be taken of a tree, whose nodes are named by their positions, as
well as of nodes that live in a store and may be shared.
-/

namespace HintQuality

/-- A tree as seen from its root, with nodes named by `ν`. -/
structure View (ν : Type) where
  /-- The root. -/
  root : ν
  /-- The nodes below the root, in pre-order. -/
  descendants : List ν
  /-- What a node says about itself. -/
  label : ν → Label
  /-- The slots of a node. -/
  slots : ν → List (Slot ν)
  /-- The parent of a node. -/
  parent : ν → Option ν
  /-- The relation labels on the way from the root to a node. -/
  path : ν → List String
  /-- More than the number of steps that lead from a node up to parents and back to preceding siblings. -/
  bound : Nat

namespace View

variable {ν : Type} (v : View ν)

/-- All nodes, in pre-order. -/
def nodes : List ν :=
  v.root :: v.descendants

/-- The children of a node, without the empty slots. -/
def children (n : ν) : List ν :=
  Slots.children (v.slots n)

/-- The nodes that carry an id. -/
def withId (x : String) : List ν :=
  v.nodes.filter fun n => (v.label n).id = some x

variable [DecidableEq ν]

/-- The number of a node's slot in its parent. -/
def slotIndex? (n : ν) : Option Nat :=
  (v.parent n).bind fun p => (v.slots p).findIdx? (·.child = some n)

/-- The relation label of a node's slot in its parent. -/
def relation? (n : ν) : Option String := do
  let p ← v.parent n
  let i ← v.slotIndex? n
  return (← (v.slots p)[i]?).relation

/-- The closest child before a node in its parent. -/
def preceding? (n : ν) : Option ν := do
  let p ← v.parent n
  let i ← v.slotIndex? n
  (Slots.children ((v.slots p).take i)).getLast?

/-- The number of the last slot of `p` that holds `n`. -/
def lastSlot? (p n : ν) : Option Nat :=
  ((v.slots p).zipIdx.filter (·.1.child = some n)).getLast?.map Prod.snd

end View

namespace Tree

/-- The label at a position. -/
def labelAt (t : Tree) (p : Position) : Label :=
  ((t.subtree? p).map label).getD { type := emptyType }

/-- The slots at a position, their children named by position. -/
def slotsAt (t : Tree) (p : Position) : List (Slot Position) :=
  (((t.subtree? p).map slots).getD []).zipIdx.map fun s => ⟨s.1.relation, s.1.child.map fun _ => p ++ [s.2]⟩

/-- The position above. -/
def parentOf (p : Position) : Option Position :=
  if p.isEmpty then none else some p.dropLast

/-- A tree with its nodes named by their positions. -/
def view (t : Tree) : View Position where
  root := []
  descendants := t.positions.tail
  label := t.labelAt
  slots := t.slotsAt
  parent := parentOf
  path := t.pathLabels
  bound := t.positions.length

end Tree

end HintQuality
