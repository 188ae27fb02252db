import HintQuality.Failure
import HintQuality.Tree.Numbering
import HintQuality.View
/-!
# Groves

Trees that are worked on: nodes with names of their own, whose labels and links change. A node knows its slots and its
parent. A node may stand in several slots; then its parent is the node that took it last, and taking it out of any slot
leaves it without one. Names are numbers in the order of planting and stay valid. A grove has no cycles as long as no
node is put below itself; the walks are bounded by the number of nodes, so that they end in any case.
-/

namespace HintQuality

/-- A node of a grove. -/
structure Plant where
  /-- What the node says about itself. -/
  label : Label
  /-- Its slots. -/
  slots : List (Slot Nat) := []
  /-- The node that took it last, unless it was taken out since. -/
  parent : Option Nat := none
  deriving DecidableEq, Repr

/-- Nodes that are linked to trees, each named by its number. -/
structure Grove where
  /-- The nodes. -/
  plants : List Plant := []
  deriving DecidableEq, Repr

namespace Grove

/-! ## Looking -/

/-- What a node says about itself. -/
def label (g : Grove) (n : Nat) : Label :=
  (g.plants[n]?.map Plant.label).getD { type := Tree.emptyType }

/-- The slots of a node. -/
def slots (g : Grove) (n : Nat) : List (Slot Nat) :=
  (g.plants[n]?.map Plant.slots).getD []

/-- The parent of a node. -/
def parent? (g : Grove) (n : Nat) : Option Nat :=
  g.plants[n]?.bind Plant.parent

/-- The number of nodes. -/
def size (g : Grove) : Nat :=
  g.plants.length

/-- The nodes on the way from a node to its root, within `fuel` steps. -/
def ancestorsWithin (g : Grove) : Nat → Nat → List Nat
  | 0, _ => []
  | fuel + 1, n =>
    match g.parent? n with
    | some p => p :: g.ancestorsWithin fuel p
    | none => []

/-- The nodes above a node, from its parent to its root. -/
def ancestors (g : Grove) (n : Nat) : List Nat :=
  g.ancestorsWithin g.size n

/-- The number of nodes above a node. -/
def depth (g : Grove) (n : Nat) : Nat :=
  (g.ancestors n).length

/-- The topmost node above a node, or the node itself. -/
def root (g : Grove) (n : Nat) : Nat :=
  ((g.ancestors n).getLast?).getD n

/-- The tree below a node, down to `fuel` levels. -/
def treeWithin (g : Grove) : Nat → Nat → Tree
  | 0, n => Tree.leaf (g.label n)
  | fuel + 1, n => .node (g.label n) ((g.slots n).map fun s => s.map (g.treeWithin fuel))

/-- The tree below a node. -/
def tree (g : Grove) (n : Nat) : Tree :=
  g.treeWithin g.size n

/-- The nodes of the tree below a node in pre-order, with the relation labels on the way, down to `fuel` levels. -/
def walkWithin (g : Grove) : Nat → List String → Nat → List (Nat × List String)
  | 0, way, n => [(n, way)]
  | fuel + 1, way, n =>
    (n, way) :: (g.slots n).flatMap fun s =>
      match s.child with
      | some c => g.walkWithin fuel (way ++ [s.relation]) c
      | none => []

/-- The nodes of the tree below a node in pre-order, with the relation labels on the way. -/
def walk (g : Grove) (n : Nat) : List (Nat × List String) :=
  g.walkWithin g.size [] n

/-- The nodes of the tree below a node, in pre-order. -/
def nodes (g : Grove) (n : Nat) : List Nat :=
  (g.walk n).map Prod.fst

/-- The tree below a node as it stands, with its nodes named as in the grove. A node that is met several times goes by
the last way to it. -/
def view (g : Grove) (n : Nat) : View Nat where
  root := n
  descendants := (g.nodes n).tail
  label := g.label
  slots := g.slots
  parent := g.parent?
  path := fun m => ((g.walk n).reverse.lookup m).getD []
  bound := g.size + 1

/-! ## Planting -/

/-- Adds a node that stands alone. -/
def plant (g : Grove) (l : Label) : Grove × Nat :=
  (⟨g.plants ++ [{ label := l }]⟩, g.size)

/-- Changes a node. -/
def modify (g : Grove) (n : Nat) (f : Plant → Plant) : Grove :=
  ⟨g.plants.modify n f⟩

/-- Changes what a node says about itself. -/
def relabel (g : Grove) (n : Nat) (f : Label → Label) : Grove :=
  g.modify n fun p => { p with label := f p.label }

/-- Makes `parent` the parent of a child, if there is one. -/
def adopt (g : Grove) (parent : Option Nat) : Option Nat → Grove
  | some c => g.modify c fun p => { p with parent := parent }
  | none => g

/-- Puts a child, or nothing, into a new slot of a node; refused if the label is taken. -/
def add (g : Grove) (n : Nat) (child : Option Nat) (relation : Option String := none) (index : Option Int := none) :
    Option Grove :=
  (Slots.insert (g.slots n) child relation index).map fun s =>
    (g.modify n fun p => { p with slots := s }).adopt (some n) child

/-- Takes out a slot of a node; also gives the child that stood there. -/
def remove (g : Grove) (n : Nat) (index : Int) : Except Failure (Option Nat × Grove) :=
  match Slots.removeAt (g.slots n) index with
  | some (s, rest) => .ok (s.child, (g.modify n fun p => { p with slots := rest }).adopt none s.child)
  | none => .error .indexOutOfRange

/-- Takes out all slots of a node. -/
def clear (g : Grove) (n : Nat) : Grove :=
  ((g.slots n).foldl (fun g s => g.adopt none s.child) g).modify n fun p => { p with slots := [] }

/-- Adds a slot at the end, under a label that is not taken. -/
def link (g : Grove) (n : Nat) (relation : String) (child : Option Nat) : Grove :=
  (g.modify n fun p => { p with slots := p.slots ++ [⟨relation, child⟩] }).adopt (some n) child

mutual

/-- Plants a whole tree; also gives its root. -/
def graft : Tree → Grove → Grove × Nat
  | .node l s, g =>
    let (g, n) := g.plant l
    (graftSlots s n g, n)

/-- Plants what stands in slots below a node. -/
def graftSlots : List (Slot Tree) → Nat → Grove → Grove
  | [], _, g => g
  | ⟨r, none⟩ :: s, n, g => graftSlots s n (g.link n r none)
  | ⟨r, some t⟩ :: s, n, g =>
    let (g, c) := graft t g
    graftSlots s n (g.link n r (some c))

end

/-- Gives every node of the tree below a node an id. -/
def autoId (g : Grove) (n : Nat) (stem : String) : Grove :=
  let nodes := (g.nodes n).eraseDups
  (nodes.zip (numbered stem 0 (nodes.map fun m => (g.label m).id))).foldl
    (fun g p => g.relabel p.1 fun l => { l with id := some p.2 }) g

end Grove

end HintQuality
