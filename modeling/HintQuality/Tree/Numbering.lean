import HintQuality.Tree.Basic
/-!
# Ids for all

Gives every node without an id one of its own making, a stem and a number, counted in pre-order. Nodes that have an id
keep it. Main statements: `length_numbered`, every node gets an id; `getElem?_numbered_of_some`, an id is kept.
-/

namespace HintQuality

/-- The ids of nodes in order, each missing one made of the stem and the next number. -/
def numbered (stem : String) : Nat → List (Option String) → List String
  | _, [] => []
  | n, some x :: ids => x :: numbered stem n ids
  | n, none :: ids => (stem ++ Text.natText n) :: numbered stem (n + 1) ids

/-- Every node gets an id. -/
theorem length_numbered (stem : String) (n : Nat) (ids : List (Option String)) :
    (numbered stem n ids).length = ids.length := by
  induction ids generalizing n with
  | nil => rfl
  | cons x ids ih => cases x <;> simp [numbered, ih]

/-- An id is kept. -/
theorem getElem?_numbered_of_some {stem x : String} {n i : Nat} {ids : List (Option String)}
    (h : ids[i]? = some (some x)) : (numbered stem n ids)[i]? = some x := by
  induction ids generalizing n i with
  | nil => simp at h
  | cons y ids ih =>
    cases i with
    | zero =>
      have hy : y = some x := by simpa using h
      subst hy
      rfl
    | succ i => cases y <;> simpa [numbered] using ih (by simpa using h)

/-- The tree with an id at every node. -/
def Tree.autoId (stem : String) (t : Tree) : Tree :=
  let ids := t.positions.zip (numbered stem 0 (t.nodes.map fun u => u.label.id))
  t.mapLabels fun p l => { l with id := ids.lookup p }

end HintQuality
