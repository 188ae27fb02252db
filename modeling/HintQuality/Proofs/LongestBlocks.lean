import HintQuality.Align
/-!
# The longest common block

An alignment starts from the first of the longest blocks that two lists have in common (`longestBlock_isFirst`) and goes
on with what lies on either side of it (`align_eq`). The search keeps the first of the longest blocks among those it has
seen, row by row (`IsFirst.scanRow`, `IsFirst.scan`). A block leaves less of the first list on either side, so that the
bound on nested blocks is never met (`alignWithin_eq_align`). What is paired agrees (`agree_of_mem_align`).
-/

namespace HintQuality

namespace Align

variable {α β : Type} (agree : α → β → Bool)

/-! ## The search -/

/-- The place `(k, l)` is searched before the place `(i, j)`. -/
def Before (k l i j : Nat) : Prop :=
  k < i ∨ (k = i ∧ l < j)

theorem before_succ_iff {k l i j : Nat} : Before k l i (j + 1) ↔ Before k l i j ∨ (k = i ∧ l = j) := by
  unfold Before
  omega

/-- How long a block can be that starts at the `k`-th element of one list and at the `l`-th of the other. -/
def sizeAt (as : List α) (bs : List β) (k l : Nat) : Nat :=
  commonLength agree (as.drop k) (bs.drop l)

theorem commonLength_nil_right (as : List α) : commonLength agree as [] = 0 := by
  cases as <;> rfl

/-- No block starts behind the end of a list. -/
theorem sizeAt_eq_zero {as : List α} {bs : List β} {k l : Nat} (h : as.length ≤ k ∨ bs.length ≤ l) :
    sizeAt agree as bs k l = 0 := by
  unfold sizeAt
  rcases h with h | h
  · rw [List.drop_eq_nil_of_le h]
    rfl
  · rw [List.drop_eq_nil_of_le h, commonLength_nil_right]

/-- The first of the longest blocks among those that start before the place `(i, j)`. -/
structure Block.IsFirst (b : Block) (as : List α) (bs : List β) (i j : Nat) : Prop where
  /-- Both lists agree along it. -/
  common : b.size ≤ sizeAt agree as bs b.left b.right
  /-- No block is longer. -/
  longest : ∀ k l, Before k l i j → sizeAt agree as bs k l ≤ b.size
  /-- Every block that starts earlier is shorter. -/
  earliest : ∀ k l, Before k l b.left b.right → sizeAt agree as bs k l < b.size

namespace Block.IsFirst

variable {agree} {xs : List α} {ys : List β} {best : Block} {i j : Nat}

/-- One more place is searched. -/
theorem next (h : best.IsFirst agree xs ys i j) :
    (if best.size < sizeAt agree xs ys i j then ⟨i, j, sizeAt agree xs ys i j⟩ else best : Block).IsFirst
      agree xs ys i (j + 1) := by
  split
  · rename_i hlonger
    refine ⟨Nat.le_refl _, fun k l hkl => ?_, fun k l hkl => ?_⟩
    · rcases before_succ_iff.1 hkl with hkl | ⟨rfl, rfl⟩
      · have := h.longest k l hkl
        show sizeAt agree xs ys k l ≤ sizeAt agree xs ys i j
        omega
      · exact Nat.le_refl _
    · have := h.longest k l hkl
      show sizeAt agree xs ys k l < sizeAt agree xs ys i j
      omega
  · rename_i hshorter
    refine ⟨h.common, fun k l hkl => ?_, h.earliest⟩
    rcases before_succ_iff.1 hkl with hkl | ⟨rfl, rfl⟩
    · exact h.longest k l hkl
    · exact Nat.le_of_not_lt hshorter

/-- A row ends where the second list does. -/
theorem nextRow (h : best.IsFirst agree xs ys i ys.length) : best.IsFirst agree xs ys (i + 1) 0 := by
  refine ⟨h.common, fun k l hkl => ?_, h.earliest⟩
  by_cases hl : ys.length ≤ l
  · rw [sizeAt_eq_zero agree (.inr hl)]
    exact Nat.zero_le _
  · apply h.longest
    unfold Before at hkl ⊢
    omega

theorem scanRow {as : List α} (hi : xs.drop i = as) {bs : List β} (hj : ys.drop j = bs) (hlength : j ≤ ys.length)
    (h : best.IsFirst agree xs ys i j) : (scanRow agree as i j bs best).IsFirst agree xs ys i ys.length := by
  induction bs generalizing j best with
  | nil =>
    have hend : j = ys.length := Nat.le_antisymm hlength (List.drop_eq_nil_iff.1 hj)
    exact hend ▸ h
  | cons b bs ih =>
    have hsize : commonLength agree as (b :: bs) = sizeAt agree xs ys i j := by rw [sizeAt, hi, hj]
    have hlt : j < ys.length := by
      have := congrArg List.length hj
      simp at this
      omega
    rw [Align.scanRow, hsize]
    exact ih (by rw [← List.drop_drop, hj]; rfl) hlt h.next

theorem scan {as : List α} (hi : xs.drop i = as) (h : best.IsFirst agree xs ys i 0) :
    ∃ i', xs.length ≤ i' ∧ (scan agree ys i as best).IsFirst agree xs ys i' 0 := by
  induction as generalizing i best with
  | nil => exact ⟨i, List.drop_eq_nil_iff.1 hi, h⟩
  | cons a as ih =>
    have hrest : xs.drop (i + 1) = as := by rw [← List.drop_drop, hi]; rfl
    exact ih hrest (h.scanRow hi rfl (Nat.zero_le _)).nextRow

end Block.IsFirst

/-- The longest common block is the first of the longest ones. -/
theorem longestBlock_isFirst (as : List α) (bs : List β) :
    (longestBlock agree as bs).IsFirst agree as bs as.length 0 := by
  have hnone : ∀ k l, ¬Before k l 0 0 := by
    intro k l
    unfold Before
    omega
  have hstart : (⟨0, 0, 0⟩ : Block).IsFirst agree as bs 0 0 :=
    ⟨Nat.zero_le _, fun k l hkl => absurd hkl (hnone k l), fun k l hkl => absurd hkl (hnone k l)⟩
  obtain ⟨i, hi, hfirst⟩ := hstart.scan List.drop_zero
  refine ⟨hfirst.common, fun k l hkl => hfirst.longest k l ?_, hfirst.earliest⟩
  unfold Before at hkl ⊢
  omega

/-- No block is longer, wherever it starts. -/
theorem sizeAt_le_longestBlock (as : List α) (bs : List β) (k l : Nat) :
    sizeAt agree as bs k l ≤ (longestBlock agree as bs).size := by
  by_cases hk : k < as.length
  · exact (longestBlock_isFirst agree as bs).longest k l (.inl hk)
  · rw [sizeAt_eq_zero agree (.inl (Nat.le_of_not_lt hk))]
    exact Nat.zero_le _

/-! ## Nested blocks -/

/-- What lies on either side of a block is shorter than the first list. -/
theorem length_beside_longestBlock {as : List α} {bs : List β} (h : (longestBlock agree as bs).size ≠ 0) :
    (as.take (longestBlock agree as bs).left).length < as.length ∧
    (as.drop ((longestBlock agree as bs).left + (longestBlock agree as bs).size)).length < as.length := by
  obtain ⟨hleft, -⟩ := longestBlock_within agree as bs
  rw [List.length_take, List.length_drop]
  omega

theorem alignWithin_congr {fuel fuel' : Nat} {as : List α} {bs : List β} (h : as.length ≤ fuel)
    (h' : as.length ≤ fuel') : alignWithin agree fuel as bs = alignWithin agree fuel' as bs := by
  induction fuel generalizing fuel' as bs with
  | zero =>
    obtain rfl : as = [] := List.eq_nil_of_length_eq_zero (Nat.le_zero.1 h)
    cases fuel' <;> rfl
  | succ fuel ih =>
    cases fuel' with
    | zero =>
      obtain rfl : as = [] := List.eq_nil_of_length_eq_zero (Nat.le_zero.1 h')
      rfl
    | succ fuel' =>
      by_cases hsize : (longestBlock agree as bs).size = 0
      · simp only [alignWithin, if_pos hsize]
      · obtain ⟨htake, hdrop⟩ := length_beside_longestBlock agree hsize
        simp only [alignWithin, if_neg hsize]
        congr 1
        · apply ih <;> omega
        · congr 1
          apply ih <;> omega

/-- The bound on nested blocks is not met from the length of the first list on. -/
theorem alignWithin_eq_align {fuel : Nat} {as : List α} (h : as.length ≤ fuel) (bs : List β) :
    alignWithin agree fuel as bs = align agree as bs :=
  alignWithin_congr agree h (Nat.le_refl _)

/-- What lies on either side of the longest common block is aligned in the same way. -/
theorem align_eq (as : List α) (bs : List β) : align agree as bs =
    let block := longestBlock agree as bs
    if block.size = 0 then
      if as.isEmpty && bs.isEmpty then [] else [.changed as bs]
    else
      align agree (as.take block.left) (bs.take block.right) ++
        .same (((as.drop block.left).take block.size).zip ((bs.drop block.right).take block.size)) ::
          align agree (as.drop (block.left + block.size)) (bs.drop (block.right + block.size)) := by
  rw [← alignWithin_eq_align agree (Nat.le_succ as.length)]
  by_cases hsize : (longestBlock agree as bs).size = 0
  · simp only [alignWithin, if_pos hsize]
  · obtain ⟨htake, hdrop⟩ := length_beside_longestBlock agree hsize
    simp only [alignWithin, if_neg hsize]
    rw [alignWithin_eq_align agree (Nat.le_of_lt htake), alignWithin_eq_align agree (Nat.le_of_lt hdrop)]

/-- Elements that are no further than the common length agree. -/
theorem agree_of_mem_zip {n : Nat} {as : List α} {bs : List β} (hn : n ≤ commonLength agree as bs) {p : α × β}
    (hp : p ∈ (as.take n).zip (bs.take n)) : agree p.1 p.2 = true := by
  induction as generalizing n bs with
  | nil => simp at hp
  | cons a as ih =>
    cases bs with
    | nil => simp at hp
    | cons b bs =>
      cases n with
      | zero => simp at hp
      | succ n =>
        simp only [commonLength] at hn
        split at hn
        · rename_i hab
          rw [List.take_succ_cons, List.take_succ_cons, List.zip_cons_cons, List.mem_cons] at hp
          rcases hp with rfl | hp
          · exact hab
          · exact ih (Nat.le_of_succ_le_succ hn) hp
        · cases hn

theorem agree_of_mem_alignWithin {fuel : Nat} {as : List α} {bs : List β} {pairs : List (α × β)}
    (hs : .same pairs ∈ alignWithin agree fuel as bs) {p : α × β} (hp : p ∈ pairs) : agree p.1 p.2 = true := by
  induction fuel generalizing as bs with
  | zero =>
    simp only [alignWithin] at hs
    split at hs <;> simp at hs
  | succ fuel ih =>
    simp only [alignWithin] at hs
    split at hs
    · split at hs <;> simp at hs
    · rcases List.mem_append.1 hs with hs | hs
      · exact ih hs
      · rcases List.mem_cons.1 hs with e | hs
        · cases e
          exact agree_of_mem_zip agree (longestBlock_isFirst agree as bs).common hp
        · exact ih hs

end Align

/-- What stands in pairs agrees. -/
theorem agree_of_mem_align {α β : Type} (agree : α → β → Bool) {as : List α} {bs : List β} {pairs : List (α × β)}
    (hs : .same pairs ∈ align agree as bs) {p : α × β} (hp : p ∈ pairs) : agree p.1 p.2 = true :=
  Align.agree_of_mem_alignWithin agree hs hp

end HintQuality
