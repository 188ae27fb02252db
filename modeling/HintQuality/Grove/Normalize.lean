import HintQuality.Grove.Prune
/-!
# Normalizing in place

Takes the values and ids that do not matter out of a copy of a tree of a grove. A node that loses its value is replaced
by a new one that takes over its place and its children, and ids are set on the nodes that are there in the end.
-/

namespace HintQuality.Grove

/-- Moves the children of a node below another one. -/
def moveChildren (g : Grove) (n m : Nat) : Grove :=
  (g.slots n).foldl (fun g s => (g.add m s.child (some s.relation)).getD g) (g.clear n)

/-- Puts a new node without a value into the place of a child of `p`. -/
def replace (g : Grove) (p n : Nat) : Except Failure Grove := do
  let (g, m) := g.plant { g.label n with value := none }
  let index := g.place n
  let relation := (g.view n).relation? n
  let (_, g) ← g.remove p index
  let g := (g.add p (some m) relation (some index)).getD g
  return g.moveChildren n m

/-- Replaces a node that has a parent if its value is not kept. -/
def forgetValue (policy : Policy) (known : List String) (g : Grove) (n : Nat) : Except Failure Grove :=
  match g.parent? n with
  | none => .ok g
  | some p => if (g.label n).value.all (keepsValue policy known) then .ok g else g.replace p n

/-- Gives a node that has a parent the id of its start node, or none. -/
def adoptId (g : Grove) (pair : Nat × Option Nat) : Grove :=
  if (g.parent? pair.1).isNone then g
  else g.relabel pair.1 fun l => { l with id := pair.2.bind fun n => (g.label n).id }

/-- Gives all nodes below `goal` the ids of their start nodes. -/
def adoptIds (g : Grove) (start goal : Nat) : Grove :=
  ((Correspondence.of (g.view start) (g.view goal)).table (g.view goal)).foldl adoptId g

/-- Copies the tree at `goal` and takes out of it the values that `start` does not know and the ids that are not its.
Also gives the root of the copy. -/
def normalizeValues (g : Grove) (policy : Policy) (start goal : Nat) : Except Failure (Grove × Nat) := do
  let (g, n) := graft (g.tree goal) g
  let g ← (g.nodes n).foldlM (forgetValue policy (g.view start).values) g
  return (g.adoptIds start n, n)

end HintQuality.Grove
