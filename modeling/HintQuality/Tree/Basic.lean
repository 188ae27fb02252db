import HintQuality.Tree.Slot
/-!
# Program trees

A node has a type, possibly a value and an id, and children in labelled slots. Equality is structural and covers
the labels. A node of a tree is named by its position, the list of slot numbers on the way from the root, so that
equal subtrees in different places stay apart: `subtree?_append` says that positions compose.
-/

namespace HintQuality

/-- What a node says about itself. -/
structure Label where
  /-- The type of the node. -/
  type : String
  /-- The value, such as a name or a literal. -/
  value : Option String := none
  /-- The identity that a tool gave the node. -/
  id : Option String := none
  deriving DecidableEq, Repr

/-- The type and value, as they read in outlines and edits. -/
def Label.text (l : Label) (showValue : Bool := true) : String :=
  match l.value with
  | some v => if showValue then l.type ++ "[" ++ v ++ "]" else l.type
  | none => l.type

/-- A program tree. -/
inductive Tree where
  | node (label : Label) (slots : List (Slot Tree))
  deriving Repr

/-- The place of a node: the slot numbers on the way from the root. -/
abbrev Position := List Nat

namespace Tree

/-- The type of a placeholder for an empty child. -/
def emptyType : String := "null"

/-- The label of the root. -/
def label : Tree → Label
  | node l _ => l

/-- The slots of the root. -/
def slots : Tree → List (Slot Tree)
  | node _ s => s

/-- The children of the root, without the empty slots. -/
def children (t : Tree) : List Tree :=
  Slots.children t.slots

/-- A node without slots. -/
def leaf (l : Label) : Tree :=
  node l []

instance : Inhabited Tree := ⟨leaf ⟨emptyType, none, none⟩⟩

@[simp] theorem node_label_slots (t : Tree) : node t.label t.slots = t := by
  cases t; rfl

/-- Induction over a tree: a property that every node inherits from its children holds everywhere. -/
theorem induct {P : Tree → Prop} (h : ∀ l s, (∀ r t, ⟨r, some t⟩ ∈ s → P t) → P (node l s)) (t : Tree) : P t :=
  Tree.rec (motive_1 := P) (motive_2 := fun s => ∀ r t, ⟨r, some t⟩ ∈ s → P t)
    (motive_3 := fun s => ∀ t, s.child = some t → P t) (motive_4 := fun c => ∀ t, c = some t → P t)
    (fun l s ih => h l s ih)
    (fun _ _ hm => by cases hm)
    (fun _ _ hs ih r t hm => by
      rcases List.mem_cons.1 hm with e | hm
      · exact hs t (by rw [← e])
      · exact ih r t hm)
    (fun _ _ ih t e => ih t e)
    (fun _ e => by cases e)
    (fun _ ht _ e => by cases e; exact ht)
    t

mutual

/-- Decides equality of trees. -/
def decEq : (t u : Tree) → Decidable (t = u)
  | node l s, node l' s' =>
    if hl : l = l' then
      match decEqSlots s s' with
      | isTrue hs => isTrue (by rw [hl, hs])
      | isFalse hs => isFalse fun e => hs (Tree.node.inj e).2
    else isFalse fun e => hl (Tree.node.inj e).1

/-- Decides equality of slots. -/
def decEqSlots : (s s' : List (Slot Tree)) → Decidable (s = s')
  | [], [] => isTrue rfl
  | [], _ :: _ => isFalse (by simp)
  | _ :: _, [] => isFalse (by simp)
  | ⟨r, none⟩ :: s, ⟨r', none⟩ :: s' =>
    if hr : r = r' then
      match decEqSlots s s' with
      | isTrue hs => isTrue (by rw [hr, hs])
      | isFalse hs => isFalse fun e => hs (List.cons.inj e).2
    else isFalse fun e => hr (Slot.mk.inj (List.cons.inj e).1).1
  | ⟨_, none⟩ :: _, ⟨_, some _⟩ :: _ => isFalse fun e => nomatch (Slot.mk.inj (List.cons.inj e).1).2
  | ⟨_, some _⟩ :: _, ⟨_, none⟩ :: _ => isFalse fun e => nomatch (Slot.mk.inj (List.cons.inj e).1).2
  | ⟨r, some t⟩ :: s, ⟨r', some t'⟩ :: s' =>
    if hr : r = r' then
      match decEq t t', decEqSlots s s' with
      | isTrue ht, isTrue hs => isTrue (by rw [hr, ht, hs])
      | isFalse ht, _ => isFalse fun e => ht (Option.some.inj (Slot.mk.inj (List.cons.inj e).1).2)
      | _, isFalse hs => isFalse fun e => hs (List.cons.inj e).2
    else isFalse fun e => hr (Slot.mk.inj (List.cons.inj e).1).1

end

instance : DecidableEq Tree := decEq

/-! ## Positions -/

/-- The subtree at a position. -/
def subtree? (t : Tree) : Position → Option Tree
  | [] => some t
  | i :: p => (t.slots[i]?.bind Slot.child).bind (subtree? · p)

/-- Positions compose. -/
theorem subtree?_append (t : Tree) (p q : Position) : t.subtree? (p ++ q) = (t.subtree? p).bind (·.subtree? q) := by
  induction p generalizing t with
  | nil => rfl
  | cons i p ih =>
    simp only [List.cons_append, subtree?]
    cases t.slots[i]?.bind Slot.child with
    | none => rfl
    | some u => simp [ih]

mutual

/-- The positions of all nodes in pre-order, where the root stands at `here`. -/
def positionsFrom (here : Position) : Tree → List Position
  | node _ s => here :: slotPositions here 0 s

/-- The positions below the slots from number `i` on of the node at `here`. -/
def slotPositions (here : Position) (i : Nat) : List (Slot Tree) → List Position
  | [] => []
  | ⟨_, none⟩ :: s => slotPositions here (i + 1) s
  | ⟨_, some t⟩ :: s => positionsFrom (here ++ [i]) t ++ slotPositions here (i + 1) s

end

/-- The positions of all nodes, in pre-order. -/
def positions (t : Tree) : List Position :=
  t.positionsFrom []

mutual

/-- All nodes as subtrees, in pre-order. -/
def nodes : Tree → List Tree
  | node l s => node l s :: slotNodes s

/-- All nodes below the slots, in pre-order. -/
def slotNodes : List (Slot Tree) → List Tree
  | [] => []
  | ⟨_, none⟩ :: s => slotNodes s
  | ⟨_, some t⟩ :: s => t.nodes ++ slotNodes s

end

/-- The relation labels on the way from the root to a position. -/
def pathLabels (t : Tree) : Position → List String
  | [] => []
  | i :: p =>
    match t.slots[i]? with
    | some ⟨r, some u⟩ => r :: u.pathLabels p
    | _ => []

mutual

/-- Changes the label of every node as `f` says for its position. -/
def mapLabelsFrom (f : Position → Label → Label) (here : Position) : Tree → Tree
  | node l s => node (f here l) (mapSlotLabels f here 0 s)

/-- `mapLabelsFrom` on the slots from number `i` on of the node at `here`. -/
def mapSlotLabels (f : Position → Label → Label) (here : Position) (i : Nat) : List (Slot Tree) → List (Slot Tree)
  | [] => []
  | ⟨r, none⟩ :: s => ⟨r, none⟩ :: mapSlotLabels f here (i + 1) s
  | ⟨r, some t⟩ :: s => ⟨r, some (t.mapLabelsFrom f (here ++ [i]))⟩ :: mapSlotLabels f here (i + 1) s

end

/-- The tree of the same shape with the label of every node changed as `f` says for its position. -/
def mapLabels (f : Position → Label → Label) (t : Tree) : Tree :=
  t.mapLabelsFrom f []

end Tree

end HintQuality
