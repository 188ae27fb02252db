import HintQuality.Correspondence
import HintQuality.Decimal.Reader
import HintQuality.Policy
/-!
# Normal forms of results

Two hints for one request rarely agree on what does not matter: names of new variables, ids of new blocks, empty
scripts left behind, literals that the editor attached. Relative to the request tree, `normalizeValues` takes away
new values and foreign ids, `prune` what carries no intent, and `normalForm` both, so that equal normal forms mean
equal hints.
-/

namespace HintQuality

/-! ## Values and ids -/

/-- Whether a value reads as a number. -/
def isNumeral (value : String) : Bool :=
  (Decimal.readFloat? value).isSome

/-- The values that the nodes of a tree have. -/
def View.values {ν : Type} (v : View ν) : List String :=
  v.nodes.filterMap fun n => (v.label n).value

/-- Whether a value of a node below the root is kept: it is known, or a number where numbers matter. -/
def keepsValue (policy : Policy) (known : List String) (value : String) : Bool :=
  value ∈ known || (policy.specificNumericLiterals && isNumeral value)

/-- The label at a position without its value, if it is below the root and the value is not kept. -/
def forgetValue (policy : Policy) (known : List String) (p : Position) (l : Label) : Label :=
  if p.isEmpty then l else { l with value := l.value.filter (keepsValue policy known) }

/-- The tree without the values below the root that are not kept. -/
def forgetValues (policy : Policy) (known : List String) (goal : Tree) : Tree :=
  goal.mapLabels (forgetValue policy known)

/-- The label at a position with the id of its start node, or none, if it is below the root. -/
def adoptId {ν : Type} (start : View ν) (c : Correspondence Position ν) (p : Position) (l : Label) : Label :=
  if p.isEmpty then l else { l with id := (c.pairs.lookup p).bind fun n => (start.label n).id }

/-- The tree with the ids of the start nodes that its nodes belong to. -/
def adoptIds {ν : Type} [DecidableEq ν] (start : View ν) (goal : Tree) : Tree :=
  goal.mapLabels (adoptId start (Correspondence.of start goal.view))

/-- The tree with known values only and with the ids of the start. -/
def normalizeValuesAgainst {ν : Type} [DecidableEq ν] (start : View ν) (policy : Policy) (goal : Tree) : Tree :=
  adoptIds start (forgetValues policy start.values goal)

/-- The tree with known values only and with the ids of the start. -/
def normalizeValues (policy : Policy) (start goal : Tree) : Tree :=
  normalizeValuesAgainst start.view policy goal

/-! ## Pruning -/

/-- Whether a pruned node says nothing: a placeholder, or a childless node of a type that needs children. -/
def isLeftover (policy : Policy) (t : Tree) : Bool :=
  t.label.type = Tree.emptyType || (t.slots.isEmpty && policy.trimIfChildless t.label.type)

mutual

/-- The tree without the nodes below the root that say nothing, children before parents. -/
def pruneLeftovers (policy : Policy) : Tree → Tree
  | .node l s => .node l (pruneSlots policy s)

/-- The slots without the children that say nothing. -/
def pruneSlots (policy : Policy) : List (Slot Tree) → List (Slot Tree)
  | [] => []
  | ⟨r, none⟩ :: s => ⟨r, none⟩ :: pruneSlots policy s
  | ⟨r, some t⟩ :: s =>
    let t' := pruneLeftovers policy t
    if isLeftover policy t' then pruneSlots policy s else ⟨r, some t'⟩ :: pruneSlots policy s

end

/-- Whether a slot holds a childless node that the editor attaches to a new parent. -/
def isAttached (policy : Policy) (s : Slot Tree) : Bool :=
  match s.child with
  | some t => policy.trimIfParentIsAdded t.label.type && t.slots.isEmpty
  | none => false

mutual

/-- The tree, standing at `here`, without what the editor attached to the added nodes below the root, children
before parents. -/
def detachFrom (policy : Policy) (isAdded : Position → Bool) (here : Position) : Tree → Tree
  | .node l s =>
    let s' := detachSlots policy isAdded here 0 s
    .node l (if !here.isEmpty && isAdded here then s'.filter fun c => !isAttached policy c else s')

/-- `detachFrom` on the slots from number `i` on of the node at `here`. -/
def detachSlots (policy : Policy) (isAdded : Position → Bool) (here : Position) (i : Nat) :
    List (Slot Tree) → List (Slot Tree)
  | [] => []
  | ⟨r, none⟩ :: s => ⟨r, none⟩ :: detachSlots policy isAdded here (i + 1) s
  | ⟨r, some t⟩ :: s =>
    ⟨r, some (detachFrom policy isAdded (here ++ [i]) t)⟩ :: detachSlots policy isAdded here (i + 1) s

end

/-- The tree without what the editor attached to nodes that are new, moved or changed. -/
def detach {ν : Type} [DecidableEq ν] (start : View ν) (policy : Policy) (goal : Tree) : Tree :=
  let added := (Correspondence.of start goal.view).added start goal.view
  detachFrom policy (· ∈ added) [] goal

/-- The tree without nodes that carry no intent. -/
def pruneAgainst {ν : Type} [DecidableEq ν] (start : View ν) (policy : Policy) (goal : Tree) : Tree :=
  detach start policy (pruneLeftovers policy goal)

/-- The tree without nodes that carry no intent. -/
def prune (policy : Policy) (start goal : Tree) : Tree :=
  pruneAgainst start.view policy goal

/-- The form of a result that decides whether two hints are the same. -/
def normalForm (policy : Policy) (start goal : Tree) : Tree :=
  prune policy start (normalizeValues policy start goal)

end HintQuality
