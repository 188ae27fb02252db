import HintQuality.Grove.Basic
/-!
# Children in two columns

The children of a node and their labels, kept in two lists side by side that are changed one after the other. Nothing
but the order of the changes holds the two together, so an index that only one of them has would leave them apart.
A grove keeps each child and its label in one slot and answers the same commands.
-/

namespace HintQuality

/-- Something to do with the children of a node. -/
inductive ChildCommand (α : Type) where
  /-- Put a child in at an index, at the end by default, under a label, a fresh one by default. -/
  | add (child : Option α) (relation : Option String) (index : Option Int)
  /-- Take out the child at an index. -/
  | remove (index : Int)
  /-- Take out all children. -/
  | clear
  deriving DecidableEq, Repr

/-- What comes of it. -/
inductive ChildReply (α : Type) where
  /-- The child was put in. -/
  | added
  /-- The label is taken. -/
  | labelTaken
  /-- The child that was taken out. -/
  | removed (child : Option α)
  /-- There is no such index. -/
  | outOfRange
  /-- All children were taken out. -/
  | cleared
  deriving DecidableEq, Repr

/-- The command was not obeyed. -/
def ChildReply.refused {α : Type} : ChildReply α → Bool
  | labelTaken | outOfRange => true
  | added | removed _ | cleared => false

/-! ## One list -/

section OneList

variable {β : Type}

/-- Puts an element in at an index. -/
def insertAt (xs : List β) (index : Int) (x : β) : List β :=
  let i := Slots.insertionPoint xs.length index
  xs.take i ++ x :: xs.drop i

/-- Takes out the element at an index. -/
def popAt? (xs : List β) (index : Int) : Option (β × List β) := do
  let i ← Slots.removalPoint? xs.length index
  let x ← xs[i]?
  return (x, xs.eraseIdx i)

end OneList

/-! ## Two lists -/

/-- The children of a node and their labels. -/
structure Columns (α : Type) where
  /-- The children, in order. -/
  children : List (Option α)
  /-- The labels, in the order of the children. -/
  relations : List String
  deriving DecidableEq, Repr

namespace Columns

variable {α : Type}

/-- The two columns of slots. -/
def ofSlots (slots : List (Slot α)) : Columns α :=
  ⟨slots.map Slot.child, Slots.relations slots⟩

/-- The child at the place where a label is found. -/
def child? (c : Columns α) (relation : String) : Option α :=
  (c.relations.idxOf? relation).bind fun i => c.children[i]?.join

/-- The label that a child is put in under: the given one, or the first unused number from the count of children on. -/
def labelFor (c : Columns α) (relation : Option String) : String :=
  relation.getD (Slots.freshFrom c.relations (c.relations.length + 1) c.children.length)

/-- Puts a child in, unless its label is taken. -/
def add (c : Columns α) (child : Option α) (relation : Option String) (index : Option Int) :
    ChildReply α × Columns α :=
  let label := c.labelFor relation
  if label ∈ c.relations then (.labelTaken, c)
  else
    let i := index.getD c.children.length
    (.added, ⟨insertAt c.children i child, insertAt c.relations i label⟩)

/-- Takes out a child and then its label; if there is no such child nothing is taken out, and if there is no such label
it is too late for that. -/
def remove (c : Columns α) (index : Int) : ChildReply α × Columns α :=
  match popAt? c.children index with
  | none => (.outOfRange, c)
  | some (child, children) =>
    match popAt? c.relations index with
    | none => (.outOfRange, ⟨children, c.relations⟩)
    | some (_, relations) => (.removed child, ⟨children, relations⟩)

/-- Does what a command says. -/
def perform (c : Columns α) : ChildCommand α → ChildReply α × Columns α
  | .add child relation index => c.add child relation index
  | .remove index => c.remove index
  | .clear => (.cleared, ⟨[], []⟩)

/-- The columns after commands. -/
def run (c : Columns α) (history : List (ChildCommand α)) : Columns α :=
  history.foldl (fun c command => (c.perform command).2) c

end Columns

/-! ## Slots and groves -/

namespace Slots

variable {α : Type}

/-- Does what a command says to slots. -/
def perform (slots : List (Slot α)) : ChildCommand α → ChildReply α × List (Slot α)
  | .add child relation index =>
    match insert slots child relation index with
    | some slots' => (.added, slots')
    | none => (.labelTaken, slots)
  | .remove index =>
    match removeAt slots index with
    | some (s, rest) => (.removed s.child, rest)
    | none => (.outOfRange, slots)
  | .clear => (.cleared, [])

/-- The slots after commands. -/
def run (slots : List (Slot α)) (history : List (ChildCommand α)) : List (Slot α) :=
  history.foldl (fun slots command => (perform slots command).2) slots

end Slots

namespace Grove

/-- The children of a node and their labels. -/
def columns (g : Grove) (n : Nat) : Columns Nat :=
  .ofSlots (g.slots n)

/-- Does what a command says to the children of a node. -/
def perform (g : Grove) (n : Nat) : ChildCommand Nat → ChildReply Nat × Grove
  | .add child relation index =>
    match g.add n child relation index with
    | some g' => (.added, g')
    | none => (.labelTaken, g)
  | .remove index =>
    match g.remove n index with
    | .ok (child, g') => (.removed child, g')
    | .error _ => (.outOfRange, g)
  | .clear => (.cleared, g.clear n)

/-- The grove after commands to one node. -/
def run (g : Grove) (n : Nat) (history : List (ChildCommand Nat)) : Grove :=
  history.foldl (fun g command => (g.perform n command).2) g

end Grove

end HintQuality
