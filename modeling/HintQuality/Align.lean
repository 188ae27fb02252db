/-!
# Alignment

Two lists side by side, as segments that agree and segments that differ. The longest common block comes first, the
earliest of several in the first list and then in the second, and what lies on either side of it is aligned in the
same way. Main statements: `left_align` and `right_align`, the segments make up both lists.
-/

namespace HintQuality

/-- A part of an alignment. -/
inductive Segment (α β : Type) where
  /-- Elements that agree, in pairs. -/
  | same (pairs : List (α × β))
  /-- Elements of either list that have no counterpart. -/
  | changed (old : List α) (new : List β)
  deriving Repr, DecidableEq

/-- What a segment covers in the first list. -/
def Segment.left {α β : Type} : Segment α β → List α
  | same pairs => pairs.map Prod.fst
  | changed old _ => old

/-- What a segment covers in the second list. -/
def Segment.right {α β : Type} : Segment α β → List β
  | same pairs => pairs.map Prod.snd
  | changed _ new => new

namespace Align

variable {α β : Type} (agree : α → β → Bool)

/-- How many elements agree from the start on. -/
def commonLength : List α → List β → Nat
  | a :: as, b :: bs => if agree a b then commonLength as bs + 1 else 0
  | _, _ => 0

/-- A run of elements that agree. -/
structure Block where
  /-- Where it starts in the first list. -/
  left : Nat
  /-- Where it starts in the second list. -/
  right : Nat
  /-- Its length. -/
  size : Nat
  deriving Repr, DecidableEq

/-- The better of `best` and the blocks that start with the first element of `as` and anywhere in the second list. -/
def scanRow (as : List α) (i : Nat) : Nat → List β → Block → Block
  | _, [], best => best
  | j, b :: bs, best =>
    let n := commonLength agree as (b :: bs)
    scanRow as i (j + 1) bs (if best.size < n then ⟨i, j, n⟩ else best)

/-- The better of `best` and all blocks. -/
def scan (bs : List β) : Nat → List α → Block → Block
  | _, [], best => best
  | i, a :: as, best => scan bs (i + 1) as (scanRow agree (a :: as) i 0 bs best)

/-- The longest common block, the earliest in the first list and then in the second; empty if nothing agrees. -/
def longestBlock (as : List α) (bs : List β) : Block :=
  scan agree bs 0 as ⟨0, 0, 0⟩

/-- Aligns lists; `fuel` bounds the number of nested blocks and is never short from the length of the first list on. -/
def alignWithin : Nat → List α → List β → List (Segment α β)
  | 0, as, bs => if as.isEmpty && bs.isEmpty then [] else [.changed as bs]
  | fuel + 1, as, bs =>
    let block := longestBlock agree as bs
    if block.size = 0 then
      if as.isEmpty && bs.isEmpty then [] else [.changed as bs]
    else
      alignWithin fuel (as.take block.left) (bs.take block.right) ++
        .same (((as.drop block.left).take block.size).zip ((bs.drop block.right).take block.size)) ::
          alignWithin fuel (as.drop (block.left + block.size)) (bs.drop (block.right + block.size))

end Align

/-- The alignment of two lists. -/
def align {α β : Type} (agree : α → β → Bool) (as : List α) (bs : List β) : List (Segment α β) :=
  Align.alignWithin agree as.length as bs

namespace Align

variable {α β : Type} (agree : α → β → Bool)

theorem commonLength_le (as : List α) (bs : List β) :
    commonLength agree as bs ≤ as.length ∧ commonLength agree as bs ≤ bs.length := by
  induction as generalizing bs with
  | nil => simp [commonLength]
  | cons a as ih =>
    cases bs with
    | nil => simp [commonLength]
    | cons b bs =>
      have := ih bs
      simp only [commonLength, List.length_cons]
      split <;> omega

/-- A block lies within both lists. -/
def Block.Within (b : Block) (n m : Nat) : Prop :=
  b.left + b.size ≤ n ∧ b.right + b.size ≤ m

theorem scanRow_within {as : List α} {i n : Nat} (hi : i + as.length ≤ n) {m : Nat} (j : Nat) (bs : List β)
    (hj : j + bs.length ≤ m) {best : Block} (hb : best.Within n m) :
    (scanRow agree as i j bs best).Within n m := by
  induction bs generalizing j best with
  | nil => exact hb
  | cons b bs ih =>
    simp only [scanRow]
    refine ih (j + 1) (by simp only [List.length_cons] at hj; omega) ?_
    split
    · have := commonLength_le agree as (b :: bs)
      constructor <;> simp only [List.length_cons] at * <;> omega
    · exact hb

theorem scan_within {bs : List β} {n : Nat} (i : Nat) (as : List α) (hi : i + as.length ≤ n) {best : Block}
    (hb : best.Within n bs.length) : (scan agree bs i as best).Within n bs.length := by
  induction as generalizing i best with
  | nil => exact hb
  | cons a as ih =>
    simp only [scan]
    refine ih (i + 1) (by simp only [List.length_cons] at hi; omega) ?_
    exact scanRow_within agree hi 0 bs (by omega) hb

/-- The longest common block lies within both lists. -/
theorem longestBlock_within (as : List α) (bs : List β) :
    (longestBlock agree as bs).Within as.length bs.length :=
  scan_within agree 0 as (by omega) ⟨by simp, by simp⟩

theorem left_alignWithin (fuel : Nat) (as : List α) (bs : List β) :
    (alignWithin agree fuel as bs).flatMap Segment.left = as := by
  induction fuel generalizing as bs with
  | zero =>
    simp only [alignWithin]
    split
    · simp_all
    · simp [Segment.left]
  | succ fuel ih =>
    simp only [alignWithin]
    split
    · split
      · simp_all
      · simp [Segment.left]
    · obtain ⟨hl, hr⟩ := longestBlock_within agree as bs
      rw [List.flatMap_append, List.flatMap_cons, ih, ih, Segment.left, List.map_fst_zip
        (by simp only [List.length_take, List.length_drop]; omega)]
      rw [← List.drop_drop, List.take_append_drop, List.take_append_drop]

theorem right_alignWithin (fuel : Nat) (as : List α) (bs : List β) :
    (alignWithin agree fuel as bs).flatMap Segment.right = bs := by
  induction fuel generalizing as bs with
  | zero =>
    simp only [alignWithin]
    split
    · simp_all
    · simp [Segment.right]
  | succ fuel ih =>
    simp only [alignWithin]
    split
    · split
      · simp_all
      · simp [Segment.right]
    · obtain ⟨hl, hr⟩ := longestBlock_within agree as bs
      rw [List.flatMap_append, List.flatMap_cons, ih, ih, Segment.right, List.map_snd_zip
        (by simp only [List.length_take, List.length_drop]; omega)]
      rw [← List.drop_drop, List.take_append_drop, List.take_append_drop]

end Align

/-- The segments make up the first list. -/
theorem left_align {α β : Type} (agree : α → β → Bool) (as : List α) (bs : List β) :
    (align agree as bs).flatMap Segment.left = as :=
  Align.left_alignWithin agree _ as bs

/-- The segments make up the second list. -/
theorem right_align {α β : Type} (agree : α → β → Bool) (as : List α) (bs : List β) :
    (align agree as bs).flatMap Segment.right = bs :=
  Align.right_alignWithin agree _ as bs

end HintQuality
