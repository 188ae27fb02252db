import HintQuality.Increasing
/-!
# Selections from links

The piles as tables. Of each pile only the top is known, its value and its position, and each element is linked to the
one that was on top of the pile before when it was dealt. The pile for an element is found by halving, and the
selection by following the links back from the last top. Tops are overwritten, links are not.
-/

namespace HintQuality.Increasing

/-- The first place from `lo` up to `hi` whose value is not below `x`, if the values are sorted. -/
def placeBetween (tails : List Int) (x : Int) (lo hi : Nat) : Nat :=
  if lo < hi then
    if tails[(lo + hi) / 2]?.any (· < x) then placeBetween tails x ((lo + hi) / 2 + 1) hi
    else placeBetween tails x lo ((lo + hi) / 2)
  else lo
termination_by hi - lo

/-- The first place of sorted values that are not below `x`. -/
def place (tails : List Int) (x : Int) : Nat :=
  placeBetween tails x 0 tails.length

/-- The tops of the piles, and the links between positions. -/
structure Links where
  /-- The values on top. -/
  tails : List Int := []
  /-- Their positions. -/
  tops : List Nat := []
  /-- For each position the one before it in its selection, if there is one. -/
  prev : List (Option Nat)
  deriving DecidableEq, Repr

namespace Links

/-- Puts an element at a place: over the one there, or behind all. -/
def putAt {α : Type} (l : List α) (i : Nat) (x : α) : List α :=
  if i = l.length then l ++ [x] else l.set i x

/-- Deals the element at a position. -/
def deal (t : Links) (i : Nat) (x : Int) : Links :=
  let j := place t.tails x
  let tops := putAt t.tops j i
  { tails := putAt t.tails j x
    tops := tops
    prev := t.prev.set i (if j = 0 then none else tops[j - 1]?) }

/-- The links when all elements have been dealt. -/
def of (xs : List Int) : Links :=
  xs.zipIdx.foldl (fun t p => t.deal p.2 p.1) { prev := List.replicate xs.length none }

/-- The positions from one on, link by link; none if they do not end within so many steps, or leave the list. -/
def wayBack? (t : Links) : Nat → Option Nat → Option (List Nat)
  | _, none => some []
  | 0, some _ => none
  | steps + 1, some i => do
    let next ← t.prev[i]?
    return i :: (← t.wayBack? steps next)

/-- The positions from the last top on. -/
def selection? (t : Links) (steps : Nat) : Option (List Nat) :=
  t.wayBack? steps t.tops.getLast?

end Links

end HintQuality.Increasing
