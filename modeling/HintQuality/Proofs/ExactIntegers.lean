import HintQuality.Proofs.Doubles
import Mathlib
/-!
# Which integers are doubles

The integral part of the double nearest to an integer is the integer rounded to 53 bits (`truncate_ofInt`). It is read
off the bits of the double, whose fields are the sign, the mantissa and the exponent that the arithmetic of doubles
gives them (`ofBits_of_finite`). Rounding keeps a number exactly if it has at most 53 bits in front of its final
zeros (`nearest_eq_self_iff`), so an integer passes through a double unchanged if and only if it is one
(`roundInt_eq_self_iff`).
-/

namespace HintQuality.Decimal

open Float.Model Float.Model.UnpackedFloat

/-! ## Integral parts -/

theorem truncate_of_mantissa {x : Binary} (h : x.mantissa = 0) : x.truncate = 0 := by
  unfold Binary.truncate Binary.fraction
  rw [h]
  split_ifs <;> simp

/-- A mantissa and an exponent that make up a natural number have it as their integral part. -/
theorem truncate_mk (negative : Bool) {q n : Nat} {e : Int} (he : -52 ≤ e)
    (hq : q * 2 ^ (e + 52).toNat = n * 2 ^ 52) :
    (⟨negative, q, e⟩ : Binary).truncate = if negative then -(n : Int) else n := by
  have hquot : (⟨negative, q, e⟩ : Binary).fraction.1 / (⟨negative, q, e⟩ : Binary).fraction.2 = n := by
    unfold Binary.fraction
    rcases Int.le_total 0 e with hpos | hneg
    · have hexp : (e + 52).toNat = e.toNat + 52 := by omega
      rw [hexp, Nat.pow_add, ← Nat.mul_assoc] at hq
      rw [if_pos hpos]
      exact (Nat.div_one _).trans (Nat.mul_right_cancel (Nat.two_pow_pos 52) hq)
    · obtain ⟨j, hj⟩ : ∃ j, (e + 52).toNat + j = 52 := ⟨(-e).toNat, by omega⟩
      have hexp : (-e).toNat = j := by omega
      have hsplit : n * 2 ^ 52 = n * 2 ^ j * 2 ^ (e + 52).toNat := by
        rw [Nat.mul_assoc, ← Nat.pow_add, Nat.add_comm j, hj]
      rw [hsplit] at hq
      have hq' : q = n * 2 ^ j := Nat.mul_right_cancel (Nat.two_pow_pos _) hq
      rcases Int.lt_or_eq_of_le hneg with hlt | rfl
      · rw [if_neg (Int.not_le.2 hlt), hexp, hq']
        exact Nat.mul_div_cancel n (Nat.two_pow_pos j)
      · obtain rfl : j = 0 := by omega
        rw [if_pos (Int.le_refl 0), hq']
        simp
  unfold Binary.truncate
  rw [hquot]

/-- An integer rounded to 53 bits. -/
def roundInt (i : Int) : Int :=
  if i < 0 then -(nearest i.natAbs : Int) else nearest i.natAbs

/-- The integral part of the double nearest to an integer is the integer rounded to 53 bits. -/
theorem truncate_ofInt {i : Int} (hi : i.natAbs < overflow) : (Binary.ofFloat (ofInt i)).truncate = roundInt i := by
  have h := rounds_ofInt i
  generalize hu : (ofInt i).toModel.unpack = u at h
  show (Binary.ofBits (ofInt i).toModel.toBits.toBitVec.toNat).truncate = _
  cases h with
  | zero hzero =>
    rw [truncate_of_mantissa (congrArg Binary.mantissa (ofBits_of_zero hu)), roundInt, hzero, nearest_of_le (by simp)]
    simp
  | normal hnormal he he' hq =>
    obtain ⟨-, -, hpos, rfl⟩ := hnormal
    rw [ofBits_of_finite hu, truncate_mk _ he hq, roundInt]
    by_cases hneg : i < 0
    · rw [if_pos hneg, if_pos hneg]
      rfl
    · rw [if_neg hneg, if_neg hneg]
      rfl
  | infinity hle => omega

/-! ## Exact integers -/

/-- A natural number is kept by rounding to 53 bits exactly if it has at most 53 bits in front of its final zeros. -/
theorem nearest_eq_self_iff {n : Nat} : nearest n = n ↔ ∃ m k, m < 2 ^ 53 ∧ n = m * 2 ^ k := by
  constructor
  · intro h
    rcases Nat.eq_zero_or_pos n with rfl | hpos
    · exact ⟨0, 0, by decide, by simp⟩
    rcases Nat.lt_or_ge n.log2 52 with hlog | hlog
    · have hn : n < 2 ^ 53 := (Nat.log2_lt hpos.ne').1 (by omega)
      exact ⟨n, 0, hn, by simp⟩
    obtain ⟨j, hj⟩ := Nat.exists_eq_add_of_le hlog
    have hexp : n.log2 - 52 = j := by omega
    rw [nearest, hexp] at h
    rcases Nat.lt_or_eq_of_le (divNearestEven_bounds hpos.ne' hj).2 with hlt | heq
    · exact ⟨_, j, hlt, h.symm⟩
    · refine ⟨1, 53 + j, by decide, ?_⟩
      rw [← h, heq, ← Nat.pow_add, Nat.one_mul]
  · rintro ⟨m, k, hm, rfl⟩
    rcases Nat.eq_zero_or_pos m with rfl | hpos
    · rw [Nat.zero_mul]
      exact nearest_of_le (by simp)
    have hlog : m.log2 < 53 := (Nat.log2_lt hpos.ne').2 hm
    have hlog' := log2_mul_two_pow hpos.ne' k
    obtain ⟨i, hi⟩ : ∃ i, k = i + ((m * 2 ^ k).log2 - 52) := Nat.exists_eq_add_of_le' (by omega)
    have hsplit : m * 2 ^ k = m * 2 ^ i * 2 ^ ((m * 2 ^ k).log2 - 52) := by
      rw [Nat.mul_assoc, ← Nat.pow_add, ← hi]
    rw [nearest]
    generalize (m * 2 ^ k).log2 - 52 = j at hsplit
    rw [hsplit, divNearestEven_mul_self _ (Nat.two_pow_pos j)]

/-- A mantissa of 53 bits and an exponent in range stay below the range of doubles. The greatest exponent is a variable
here, since its power is too great to be evaluated. -/
theorem mul_two_pow_lt {m k r : Nat} (hm : m < 2 ^ 53) (hk : k ≤ r + 1) : m * 2 ^ k < (2 ^ 54 - 1) * 2 ^ r := by
  have hpos : 0 < 2 ^ r := Nat.two_pow_pos r
  calc m * 2 ^ k ≤ (2 ^ 53 - 1) * 2 ^ (r + 1) :=
        Nat.mul_le_mul (by omega) (Nat.pow_le_pow_right (by decide) hk)
    _ < (2 ^ 54 - 1) * 2 ^ r := by
      rw [Nat.pow_succ]
      omega

/-- Below the range of doubles a great exponent leaves room in the mantissa. -/
theorem mul_two_pow_sub_lt {m k r : Nat} (h : m * 2 ^ k < (2 ^ 54 - 1) * 2 ^ r) (hk : r + 1 ≤ k) :
    m * 2 ^ (k - (r + 1)) < 2 ^ 53 := by
  obtain ⟨j, rfl⟩ := Nat.exists_eq_add_of_le hk
  have hsplit : m * 2 ^ (r + 1 + j) = m * 2 ^ j * 2 * 2 ^ r := by
    rw [Nat.add_comm (r + 1), Nat.pow_add, Nat.pow_succ', ← Nat.mul_assoc, ← Nat.mul_assoc]
  rw [hsplit] at h
  have hlt := Nat.lt_of_mul_lt_mul_right h
  rw [Nat.add_sub_cancel_left]
  omega

/-- An integer that is a double: its absolute value has 53 bits in front of some more zeros, not too many for the range
of doubles. -/
def IsDouble (i : Int) : Prop :=
  ∃ m k, m < 2 ^ 53 ∧ k ≤ 971 ∧ i.natAbs = m * 2 ^ k

theorem exists_overflow_eq : ∃ r, r = 970 ∧ overflow = (2 ^ 54 - 1) * 2 ^ r := by
  unfold overflow
  exact ⟨970, rfl, rfl⟩

theorem nearest_eq_and_lt_iff {i : Int} : nearest i.natAbs = i.natAbs ∧ i.natAbs < overflow ↔ IsDouble i := by
  obtain ⟨r, hr, hoverflow⟩ := exists_overflow_eq
  rw [nearest_eq_self_iff, hoverflow]
  constructor
  · rintro ⟨⟨m, k, hm, hi⟩, hlt⟩
    rcases Nat.le_total k (r + 1) with hk | hk
    · exact ⟨m, k, hm, by omega, hi⟩
    · rw [hi] at hlt
      refine ⟨_, r + 1, mul_two_pow_sub_lt hlt hk, by omega, ?_⟩
      rw [hi, Nat.mul_assoc, ← Nat.pow_add, Nat.sub_add_cancel hk]
  · rintro ⟨m, k, hm, hk, hi⟩
    refine ⟨⟨m, k, hm, hi⟩, ?_⟩
    rw [hi]
    exact mul_two_pow_lt hm (by omega)

/-- An integer passes through a double unchanged exactly if it is one. -/
theorem roundInt_eq_self_iff {i : Int} : roundInt i = i ∧ i.natAbs < overflow ↔ IsDouble i := by
  have hround : roundInt i = i ↔ nearest i.natAbs = i.natAbs := by
    rw [roundInt]
    split_ifs <;> omega
  rw [hround, nearest_eq_and_lt_iff]

/-- Integers of 53 bits are doubles. -/
theorem isDouble_of_natAbs_le {i : Int} (hi : i.natAbs ≤ 2 ^ 53) : IsDouble i := by
  rcases Nat.lt_or_eq_of_le hi with hlt | heq
  · exact ⟨i.natAbs, 0, hlt, by omega, by simp⟩
  · exact ⟨1, 53, by decide, by omega, by omega⟩

/-- Odd integers of more bits are not. -/
theorem not_isDouble_of_odd {i : Int} (hi : 2 ^ 53 < i.natAbs) (hodd : i.natAbs % 2 = 1) : ¬IsDouble i := by
  rintro ⟨m, k, hm, -, h⟩
  cases k with
  | zero => omega
  | succ k =>
    rw [Nat.pow_succ, ← Nat.mul_assoc] at h
    omega

end HintQuality.Decimal
