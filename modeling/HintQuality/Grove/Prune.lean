import HintQuality.Grove.Basic
import HintQuality.Normalize
import HintQuality.Sorting
/-!
# Pruning in place

Takes the nodes that carry no intent out of a tree of a grove. Other than on a tree by itself, what counts as the
parent of a node is the link it has in the grove.
-/

namespace HintQuality.Grove

/-- The place of a node among the slots of its parent, one before the first if it is in none of them. -/
def place (g : Grove) (n : Nat) : Int :=
  (((g.view n).slotIndex? n).map Int.ofNat).getD (-1)

/-- Takes a node that says nothing out of its parent. -/
def dropLeftover (policy : Policy) (g : Grove) (n : Nat) : Except Failure Grove :=
  match g.parent? n with
  | none => .ok g
  | some p =>
    if (g.label n).type = Tree.emptyType || ((g.slots n).isEmpty && policy.trimIfChildless (g.label n).type) then
      (g.remove p (g.place n)).map Prod.snd
    else .ok g

/-- Whether a slot holds a childless node that the editor attaches to a new parent. -/
def isAttached (policy : Policy) (g : Grove) (s : Slot Nat) : Bool :=
  match s.child with
  | some c => policy.trimIfParentIsAdded (g.label c).type && (g.slots c).isEmpty
  | none => false

/-- Takes what the editor attached out of a node that has a parent. -/
def detachFrom (policy : Policy) (g : Grove) (n : Nat) : Grove :=
  if (g.parent? n).isNone then g
  else
    let gone := (g.slots n).filter (isAttached policy g)
    (gone.foldl (fun g s => g.adopt none s.child) g).modify n fun p =>
      { p with slots := p.slots.filter fun s => !isAttached policy g s }

/-- The nodes below `goal` that are new, moved or changed, the deepest first. -/
def addedByDepth (g : Grove) (start goal : Nat) : List Nat :=
  let added := (Correspondence.of (g.view start) (g.view goal)).added (g.view start) (g.view goal)
  sortBy (fun a b => g.depth b ≤ g.depth a) added

/-- Takes out below `goal` the nodes that carry no intent relative to `start`. -/
def prune (g : Grove) (policy : Policy) (start goal : Nat) : Except Failure Grove := do
  let g ← (g.nodes goal).reverse.foldlM (dropLeftover policy) g
  return (g.addedByDepth start goal).foldl (detachFrom policy) g

end HintQuality.Grove
