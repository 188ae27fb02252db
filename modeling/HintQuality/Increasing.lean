/-!
# Longest increasing selections

Which elements of a list of integers to keep so that the kept ones increase and as many as possible stay. Cards are
dealt onto piles: each goes on the first pile whose top is not smaller and remembers the top of the pile before it.
The chain of remembered cards below the last pile is the selection.
-/

namespace HintQuality.Increasing

/-- A card: the position and the value of an element. -/
abbrev Card := Nat × Int

/-- The top of a pile with the cards it remembers, last first. -/
abbrev Chain := List Card

/-- Whether the top of a chain is smaller than a value. -/
def topBelow (c : Chain) (x : Int) : Bool :=
  match c with
  | [] => true
  | card :: _ => card.2 < x

/-- Deals a card, given the chain of the pile before the first of `piles`. -/
def deal (card : Card) : Chain → List Chain → List Chain
  | before, [] => [card :: before]
  | before, c :: piles => if topBelow c card.2 then c :: deal card c piles else (card :: before) :: piles

/-- The piles after all cards have been dealt. -/
def piles (cards : List Card) : List Chain :=
  cards.foldl (fun ps card => deal card [] ps) []

/-- The positions, in ascending order, of a longest strictly increasing selection of a list. -/
def longest (xs : List Int) : List Nat :=
  (((piles (xs.zipIdx.map fun p => (p.2, p.1))).getLastD []).map Prod.fst).reverse

end HintQuality.Increasing
