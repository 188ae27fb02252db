import HintQuality.Weight
import Mathlib.Algebra.BigOperators.Group.List.Basic
import Mathlib.Algebra.Order.BigOperators.Group.List
import Mathlib.Algebra.Order.Field.Basic
import Mathlib.Algebra.Order.Field.Rat
import Mathlib.Tactic.Linarith
import Mathlib.Tactic.Ring
/-!
# Exact weights

Over the rationals shares and means are fractions (`Weight.share_eq`, `Weight.mean_eq`): where there is nothing to
divide by the rationals give zero as the guards do. In which order an array is summed makes no difference there
(`Weight.arrayMean_eq_mean`). That the guards are complete is said in an arithmetic of its own,
in which division by zero leaves a number undefined together with all that is computed from it (`Weight.Checked`):
shares and means of defined numbers are defined there, and the same (`Weight.share_checked`, `Weight.mean_checked`).
-/

namespace HintQuality.Weight

/-! ## Rationals -/

theorem sum_eq (xs : List ℚ) : Weight.sum xs = xs.sum := by
  rw [List.sum_eq_foldl]
  rfl

theorem share_eq (part total : ℚ) : share part total = part / total := by
  unfold share
  split
  · rename_i h
    have htotal : total = 0 := of_decide_eq_true h
    rw [htotal, div_zero]
    rfl
  · rfl

/-- One positive weight among others that are not negative makes the sum positive. -/
theorem sum_pos_of_mem {α : Type} {xs : List α} {f : α → ℚ} (hf : ∀ x ∈ xs, 0 ≤ f x) {x : α} (hx : x ∈ xs)
    (hpos : 0 < f x) : 0 < (xs.map f).sum := by
  refine hpos.trans_le (List.single_le_sum (fun w hw => ?_) _ (List.mem_map_of_mem hx))
  obtain ⟨y, hy, rfl⟩ := List.mem_map.1 hw
  exact hf y hy

theorem mean_eq (xs : List ℚ) : mean xs = xs.sum / xs.length := by
  cases xs with
  | nil => exact (zero_div _).symm
  | cons x xs =>
    rw [← sum_eq]
    rfl

/-! ## Arrays -/

theorem addLanes_eq (l : Lanes ℚ) (xs : List ℚ) : addLanes l xs = l.total + xs.sum := by
  fun_induction addLanes l xs with
  | case1 l a b c d e f g h xs ih =>
    rw [ih]
    simp only [Lanes.total, Lanes.add, List.sum_cons]
    ring
  | case2 l xs =>
    have hzero : l.total = l.total + 0 := (add_zero _).symm
    rw [hzero, List.foldl_assoc, ← List.sum_eq_foldl, ← hzero]

theorem blockSum_eq (xs : List ℚ) : blockSum xs = xs.sum := by
  fun_cases blockSum xs with
  | case1 a b c d e f g h xs =>
    rw [addLanes_eq]
    simp only [Lanes.total, List.sum_cons]
    ring
  | case2 => exact sum_eq xs

theorem halvedSum_eq (fuel : ℕ) (xs : List ℚ) : halvedSum fuel xs = xs.sum := by
  induction fuel generalizing xs with
  | zero => exact blockSum_eq xs
  | succ fuel ih =>
    rw [halvedSum]
    split_ifs
    · exact blockSum_eq xs
    · simp only [ih, List.sum_take_add_sum_drop]

/-- The mean of an array is the mean of its numbers. -/
theorem arrayMean_eq_mean (xs : List ℚ) : arrayMean xs = mean xs := by
  rw [arrayMean, mean, arraySum, halvedSum_eq, sum_eq]

section Means

variable {α : Type} {xs : List α} {f g : α → ℚ} {c : ℚ}

theorem mean_nonneg (h : ∀ x ∈ xs, 0 ≤ f x) : 0 ≤ mean (xs.map f) := by
  rw [mean_eq]
  refine div_nonneg (List.sum_nonneg fun y hy => ?_) (Nat.cast_nonneg _)
  obtain ⟨x, hx, rfl⟩ := List.mem_map.1 hy
  exact h x hx

theorem mean_mono (h : ∀ x ∈ xs, f x ≤ g x) : mean (xs.map f) ≤ mean (xs.map g) := by
  rw [mean_eq, mean_eq, List.length_map, List.length_map]
  exact div_le_div_of_nonneg_right (List.sum_le_sum h) (Nat.cast_nonneg _)

theorem mean_le (hc : 0 ≤ c) (h : ∀ x ∈ xs, f x ≤ c) : mean (xs.map f) ≤ c := by
  rw [mean_eq, List.length_map]
  refine div_le_of_le_mul₀ (Nat.cast_nonneg _) hc ((List.sum_le_sum h).trans_eq ?_)
  rw [List.map_const', List.sum_replicate, nsmul_eq_mul, mul_comm]

end Means

section Fractions

variable {part total w c : ℚ} (htotal : 0 ≤ total) (hle : part ≤ c * total)
include htotal hle

/-- Weight that earns nothing lowers a fraction. -/
theorem div_add_le (hpart : 0 ≤ part) (hw : 0 ≤ w) : part / (w + total) ≤ part / total := by
  rcases htotal.eq_or_lt with rfl | hpos
  · have hzero : part = 0 := le_antisymm (by linarith) hpart
    rw [hzero, zero_div, zero_div]
  · exact div_le_div_of_nonneg_left hpart hpos (le_add_of_nonneg_left hw)

/-- Weight that earns as much as weight can earn raises a fraction. -/
theorem le_div_add (hc : 0 ≤ c) (hpart : 0 ≤ part) (hw : 0 ≤ w) : part / total ≤ (c * w + part) / (w + total) := by
  rcases htotal.eq_or_lt with rfl | hpos
  · rw [div_zero]
    exact div_nonneg (add_nonneg (mul_nonneg hc hw) hpart) (add_nonneg hw le_rfl)
  · rw [div_le_div_iff₀ hpos (add_pos_of_nonneg_of_pos hw hpos)]
    have := mul_le_mul_of_nonneg_right hle hw
    linarith

end Fractions

/-! ## Arithmetic that notices division by zero -/

/-- Rationals, or nothing where a division by zero went into a computation. -/
def Checked : Type :=
  Option ℚ
  deriving DecidableEq

namespace Checked

/-- A rational. -/
def of (x : ℚ) : Checked :=
  some x

/-- The quotient of two numbers, if they are defined and the second one is not zero. -/
def div (x y : Checked) : Checked :=
  Option.bind x fun a => Option.bind y fun b => if b = 0 then none else some (a / b)

instance : Weight Checked where
  add := Option.map₂ (· + ·)
  mul := Option.map₂ (· * ·)
  div := div
  ofNat n := of n
  isZero x := x = of 0

@[simp] theorem of_add (x y : ℚ) : of x + of y = of (x + y) := rfl

@[simp] theorem of_mul (x y : ℚ) : of x * of y = of (x * y) := rfl

@[simp] theorem ofNat_eq (n : ℕ) : (Weight.ofNat n : Checked) = of n := rfl

theorem of_div {x y : ℚ} (h : y ≠ 0) : of x / of y = of (x / y) := if_neg h

end Checked

open Checked

theorem sum_checked (xs : List ℚ) : Weight.sum (xs.map of) = of (Weight.sum xs) :=
  List.foldl_map.trans (List.foldl_hom of of_add)

/-- A share is never taken of a total of zero. -/
theorem share_checked (part total : ℚ) : share (of part) (of total) = of (share part total) := by
  have hzero : isZero (of total) = isZero total :=
    decide_eq_decide.2 ⟨fun h => Option.some.inj h, fun h => congrArg of h⟩
  unfold share
  rw [hzero]
  split
  · rfl
  · rename_i h
    exact of_div (of_decide_eq_false (Bool.eq_false_of_not_eq_true h))

/-- A mean is never taken of an empty list. -/
theorem mean_checked (xs : List ℚ) : mean (xs.map of) = of (mean xs) := by
  cases xs with
  | nil => rfl
  | cons x xs =>
    have hlen : ((x :: xs).length : ℚ) ≠ 0 := Nat.cast_ne_zero.2 (Nat.succ_ne_zero _)
    have hlength : ((x :: xs).map of).length = (x :: xs).length := List.length_map _
    show Weight.sum ((x :: xs).map of) / Weight.ofNat ((x :: xs).map of).length = _
    rw [hlength, sum_checked, ofNat_eq, of_div hlen]
    rfl

/-! ### Arrays -/

/-- The lanes of defined numbers. -/
def Lanes.checked (l : Lanes ℚ) : Lanes Checked :=
  ⟨of l.a, of l.b, of l.c, of l.d, of l.e, of l.f, of l.g, of l.h⟩

theorem addLanes_checked : ∀ (xs : List ℚ) (l : Lanes ℚ), addLanes l.checked (xs.map of) = of (addLanes l xs)
  | a :: b :: c :: d :: e :: f :: g :: h :: xs, l => by
    have hadd : l.checked.add ⟨of a, of b, of c, of d, of e, of f, of g, of h⟩ =
        (l.add ⟨a, b, c, d, e, f, g, h⟩).checked := rfl
    simp only [List.map_cons]
    rw [addLanes, addLanes, hadd, addLanes_checked xs]
  | [], l | [_], l | [_, _], l | [_, _, _], l | [_, _, _, _], l | [_, _, _, _, _], l | [_, _, _, _, _, _], l
  | [_, _, _, _, _, _, _], l => rfl

theorem blockSum_checked : ∀ xs : List ℚ, blockSum (xs.map of) = of (blockSum xs)
  | a :: b :: c :: d :: e :: f :: g :: h :: xs => addLanes_checked xs ⟨a, b, c, d, e, f, g, h⟩
  | [] | [_] | [_, _] | [_, _, _] | [_, _, _, _] | [_, _, _, _, _] | [_, _, _, _, _, _] | [_, _, _, _, _, _, _] => rfl

theorem halvedSum_checked (fuel : ℕ) (xs : List ℚ) : halvedSum fuel (xs.map of) = of (halvedSum fuel xs) := by
  induction fuel generalizing xs with
  | zero => exact blockSum_checked xs
  | succ fuel ih =>
    rw [halvedSum, halvedSum, List.length_map]
    split_ifs
    · exact blockSum_checked xs
    · simp only [← List.map_take, ← List.map_drop, ih, of_add]

/-- Nor is the mean of an empty array. -/
theorem arrayMean_checked (xs : List ℚ) : arrayMean (xs.map of) = of (arrayMean xs) := by
  cases xs with
  | nil => rfl
  | cons x xs =>
    have hlen : ((x :: xs).length : ℚ) ≠ 0 := Nat.cast_ne_zero.2 (Nat.succ_ne_zero _)
    show arraySum ((x :: xs).map of) / Weight.ofNat ((x :: xs).map of).length = _
    rw [List.length_map, arraySum, List.length_map, halvedSum_checked, ofNat_eq, of_div hlen]
    rfl

end HintQuality.Weight
