import HintQuality.Json.Number
import HintQuality.Proofs.DecimalDoubles
import Mathlib
/-!
# Integers as doubles

The double nearest to an integer is the integer that agrees with it in 53 bits, rounded to the nearest and at a tie to
the even one (`nearest`), as long as it is in the range of doubles; from `overflow` on it is an infinity, and it is
never no number (`rounds_ofInt`). Therefore the integral part of the double can be taken exactly for integers below
`overflow` (`wholePart_ofInt`).

An integer of more than 53 bits is shifted to 53 bits and rounded (`roundWithAccuracy_exact`), also where its exponent
is out of the range of doubles; a shorter one is a double itself.
-/

namespace HintQuality.Decimal

open Float.Model Float.Model.UnpackedFloat

/-! ## Rounding -/

/-- An exact number of at least 53 bits is rounded to the nearest one with 53 bits. -/
theorem roundWithAccuracy_exact (s : Sign) {m : Nat} (hm : m ≠ 0) {k : Nat} (hk : m.log2 = 52 + k) {e : Int}
    (he : -1074 ≤ e + k) : ∃ q e', Normal s q e' (roundWithAccuracy Format.binary64 s m e .exact) ∧
      e + k ≤ e' ∧ q * 2 ^ (e' - (e + k)).toNat = divNearestEven m (2 ^ k) := by
  obtain ⟨hlow, hhigh⟩ := divNearestEven_bounds hm hk
  have hto : shiftedTo m 1 e = e + k := by
    rw [shiftedTo, Nat.div_one]
    omega
  have hround : ∀ {q : Nat} {e' : Int} (hq : 0 < q), shiftToTargetExponent Format.binary64 (divNearestEven m (2 ^ k))
      (e + k) .exact = (⟨q, false, false⟩, e') →
      roundWithAccuracy Format.binary64 s m e .exact = .finite s q e' hq := by
    intro q e' hq hsecond
    have hshifted : shiftToTargetExponent Format.binary64 (divNearestEven m (1 * 2 ^ (shiftedTo m 1 e - e).toNat))
        (shiftedTo m 1 e) .exact = (⟨q, false, false⟩, e') := by
      rwa [hto, add_sub_cancel_left, Int.toNat_natCast, Nat.one_mul]
    have hfraction := roundWithAccuracy_fraction (s := s) Nat.one_pos (by omega) hshifted hq
    rwa [Nat.div_one, Nat.mod_one] at hfraction
  rcases Nat.lt_or_eq_of_le hhigh with hlt | heq
  · exact ⟨_, _, ⟨hlow, hlt, by omega, hround (by omega) (shiftToTargetExponent_of_lt hlt he)⟩, le_refl _, by simp⟩
  · have hsecond := shiftToTargetExponent_carry he
    rw [← heq] at hsecond
    refine ⟨_, _, ⟨le_refl _, by decide, by decide, hround (by decide) hsecond⟩, by omega, ?_⟩
    rw [heq]
    simp

/-! ## Natural numbers -/

/-- The number with 53 bits that is nearest to a natural number. -/
def nearest (n : Nat) : Nat :=
  divNearestEven n (2 ^ (n.log2 - 52)) * 2 ^ (n.log2 - 52)

theorem nearest_of_le {n : Nat} (h : n.log2 ≤ 52) : nearest n = n := by
  rw [nearest, Nat.sub_eq_zero_of_le h, Nat.pow_zero, divNearestEven_one, Nat.mul_one]

/-- Rounding does not leave the powers of two around a number. -/
theorem nearest_bounds {n : Nat} (hn : n ≠ 0) : 2 ^ n.log2 ≤ nearest n ∧ nearest n ≤ 2 ^ (n.log2 + 1) := by
  rcases Nat.lt_or_ge n.log2 52 with h | h
  · rw [nearest_of_le (by omega)]
    exact ⟨Nat.log2_self_le hn, Nat.lt_log2_self.le⟩
  · obtain ⟨k, hk⟩ := Nat.exists_eq_add_of_le h
    obtain ⟨hlow, hhigh⟩ := divNearestEven_bounds hn hk
    have hsucc : 52 + k + 1 = 53 + k := by omega
    rw [nearest, hk, Nat.add_sub_cancel_left, hsucc, Nat.pow_add, Nat.pow_add]
    exact ⟨Nat.mul_le_mul_right _ hlow, Nat.mul_le_mul_right _ hhigh⟩

/-- Numbers beyond 53 bits are rounded. -/
theorem toModel_ofScientific_of_le {n : Nat} (hn : 2 ^ 53 ≤ n) : (Float.ofScientific n false 0).toModel =
    Float.Model.pack (roundWithAccuracy Format.binary64 .positive (n * 2 ^ 53) (-53) .exact) := by
  have hnot : ¬(n < 2 ^ 53 ∧ 0 ≤ 22) := by omega
  rw [Float.ofScientific, dif_neg hnot]
  show Float.Model.pack (UnpackedFloat.ofScientific Format.binary64 n 0) = _
  rw [UnpackedFloat.ofScientific, dif_neg (by omega), if_neg (by decide), if_neg (by norm_num), if_pos (le_refl _),
    UnpackedFloat.mul]
  simp only [Nat.shiftLeft_eq]
  rw [Int.toNat_zero, Nat.pow_zero, Nat.mul_one]
  rfl

/-! ## Natural numbers as doubles -/

theorem normal_ofScientific_of_le {n : Nat} (hn : 2 ^ 53 ≤ n) : ∃ u q e,
    (Float.ofScientific n false 0).toModel = Float.Model.pack u ∧ Normal .positive q e u ∧ -52 ≤ e ∧
      q * 2 ^ (e + 52).toNat = nearest n * 2 ^ 52 := by
  have hn0 : n ≠ 0 := by omega
  obtain ⟨j, hj⟩ : ∃ j, n.log2 = 52 + j := Nat.exists_eq_add_of_le ((Nat.le_log2 hn0).2 (by omega))
  have hlog : (n * 2 ^ 53).log2 = 52 + (53 + j) := by
    rw [log2_mul_two_pow hn0]
    omega
  obtain ⟨q, e, hnormal, he, hq⟩ := roundWithAccuracy_exact .positive (by positivity) hlog (e := -53) (by omega)
  rw [Nat.pow_add, Nat.mul_comm (2 ^ 53), divNearestEven_mul_right _ _ (by decide)] at hq
  refine ⟨_, q, e, toModel_ofScientific_of_le hn, hnormal, by omega, ?_⟩
  have hexp : (e + 52).toNat = (e - (-53 + ((53 + j : Nat) : Int))).toNat + (j + 52) := by omega
  rw [hexp, Nat.pow_add, ← Nat.mul_assoc, hq, nearest, hj, Nat.add_sub_cancel_left, Nat.pow_add, Nat.mul_assoc]

theorem normal_ofScientific_of_lt {n : Nat} (hpos : 0 < n) (hn : n < 2 ^ 53) : ∃ u q e,
    (Float.ofScientific n false 0).toModel = Float.Model.pack u ∧ Normal .positive q e u ∧ -52 ≤ e ∧
      q * 2 ^ (e + 52).toNat = nearest n * 2 ^ 52 := by
  have hc : Canonical (n * 2 ^ room n) (0 - room n) := canonical_shifted hpos hn (by omega) (by omega)
  have hnear : Near (n * 10 ^ (0 : Int)) (n * 2 ^ room n) (0 - room n) := by
    have h := near_self hc
    rwa [shifted_value, zpow_zero, ← zpow_zero (10 : ℚ)] at h
  have hroom := room_le n
  have hlog : n.log2 < 53 := (Nat.log2_lt hpos.ne').2 hn
  refine ⟨_, _, _, toModel_ofScientific_of_small hc hpos hn (by decide) hnear,
    ⟨hc.normal (by omega), hc.lt, hc.pos, rfl⟩, by omega, ?_⟩
  rw [nearest_of_le (by omega), Nat.mul_assoc, ← Nat.pow_add]
  congr 2
  omega

theorem normal_ofScientific {n : Nat} (hpos : 0 < n) : ∃ u q e,
    (Float.ofScientific n false 0).toModel = Float.Model.pack u ∧ Normal .positive q e u ∧ -52 ≤ e ∧
      q * 2 ^ (e + 52).toNat = nearest n * 2 ^ 52 := by
  rcases Nat.lt_or_ge n (2 ^ 53) with h | h
  · exact normal_ofScientific_of_lt hpos h
  · exact normal_ofScientific_of_le h

/-- Halfway between the greatest mantissa of 53 bits and the power of two after it, rounding goes up. -/
theorem divNearestEven_lt_iff {n d : Nat} (h : n < 2 ^ 54 * d) :
    divNearestEven n (2 * d) < 2 ^ 53 ↔ n < (2 ^ 54 - 1) * d := by
  have hdiv := Nat.div_add_mod n (2 * d)
  have hmod : n % (2 * d) < 2 * d := Nat.mod_lt _ (by omega)
  have hquot : n / (2 * d) < 2 ^ 53 := (Nat.div_lt_iff_lt_mul (by omega)).2 (by omega)
  rcases Nat.lt_or_ge (n / (2 * d)) (2 ^ 53 - 1) with hlt | hge
  · have hprod : 2 * d * (n / (2 * d)) ≤ 2 * d * (2 ^ 53 - 2) := Nat.mul_le_mul_left _ (by omega)
    have hnear : divNearestEven n (2 * d) ≤ n / (2 * d) + 1 := by
      simp only [divNearestEven]
      split_ifs <;> omega
    constructor <;> intro <;> omega
  · have heq : n / (2 * d) = 2 ^ 53 - 1 := by omega
    rw [heq] at hdiv
    simp only [divNearestEven, heq]
    split_ifs with hbelow habove heven
    · omega
    · omega
    · exact heven.elim
    · omega

/-- The numbers that are rounded to less than a power of two. It is a variable here, since the one after the range of
doubles is too great to be evaluated. -/
theorem nearest_lt_iff {n : Nat} (k : Nat) : nearest n < 2 ^ (k + 54) ↔ n < (2 ^ 54 - 1) * 2 ^ k := by
  have hpos : 0 < 2 ^ k := Nat.two_pow_pos k
  have hend : 2 ^ (k + 54) = 2 ^ 54 * 2 ^ k := by rw [Nat.pow_add, Nat.mul_comm]
  rcases Nat.eq_zero_or_pos n with rfl | hn
  · have hzero : nearest 0 = 0 := nearest_of_le (by simp)
    omega
  obtain ⟨hlow, hhigh⟩ := nearest_bounds hn.ne'
  have hself := Nat.log2_self_le hn.ne'
  have hself' := Nat.lt_log2_self (n := n)
  rcases Nat.lt_trichotomy n.log2 (k + 53) with hlog | hlog | hlog
  · have hpow : 2 ^ (n.log2 + 1) ≤ 2 ^ (k + 53) := Nat.pow_le_pow_right (by decide) (by omega)
    have hhalf : 2 ^ (k + 53) = 2 ^ 53 * 2 ^ k := by rw [Nat.pow_add, Nat.mul_comm]
    omega
  · rw [hlog, Nat.add_assoc, hend] at hself'
    have hexp : n.log2 - 52 = k + 1 := by omega
    have hend' : 2 ^ (k + 54) = 2 ^ 53 * 2 ^ (k + 1) := by rw [show k + 54 = 53 + (k + 1) by omega, Nat.pow_add]
    rw [← divNearestEven_lt_iff hself', ← Nat.pow_succ', nearest, hexp, hend',
      Nat.mul_lt_mul_right (Nat.two_pow_pos (k + 1))]
  · have hpow : 2 ^ (k + 54) ≤ 2 ^ n.log2 := Nat.pow_le_pow_right (by decide) (by omega)
    omega

/-- The exponent of a rounded number tells on which side of a power of two it is. -/
theorem Normal.exponent_le_iff {s : Sign} {q n : Nat} {e : Int} {u : UnpackedFloat} (h : Normal s q e u)
    (he : -52 ≤ e) (hq : q * 2 ^ (e + 52).toNat = nearest n * 2 ^ 52) (k : Nat) :
    e ≤ k + 1 ↔ nearest n < 2 ^ (k + 54) := by
  have hend : 2 ^ (k + 54) * 2 ^ 52 = 2 ^ 53 * 2 ^ (k + 53) := by
    rw [← Nat.pow_add, show k + 54 + 52 = 53 + (k + 53) by omega, Nat.pow_add]
  have hiff : nearest n < 2 ^ (k + 54) ↔ q * 2 ^ (e + 52).toNat < 2 ^ 53 * 2 ^ (k + 53) := by
    rw [hq, ← hend, Nat.mul_lt_mul_right (Nat.two_pow_pos 52)]
  obtain ⟨hlow, hhigh, -⟩ := h
  rw [hiff]
  constructor
  · intro hle
    calc q * 2 ^ (e + 52).toNat < 2 ^ 53 * 2 ^ (e + 52).toNat := Nat.mul_lt_mul_of_pos_right hhigh (Nat.two_pow_pos _)
      _ ≤ 2 ^ 53 * 2 ^ (k + 53) := Nat.mul_le_mul_left _ (Nat.pow_le_pow_right (by decide) (by omega))
  · intro hlt
    by_contra hgt
    have hge : 2 ^ 53 * 2 ^ (k + 53) ≤ q * 2 ^ (e + 52).toNat := by
      calc 2 ^ 53 * 2 ^ (k + 53) = 2 ^ 52 * 2 ^ (k + 54) := by rw [← hend, Nat.mul_comm]
        _ ≤ q * 2 ^ (k + 54) := Nat.mul_le_mul_right _ hlow
        _ ≤ q * 2 ^ (e + 52).toNat := Nat.mul_le_mul_left _ (Nat.pow_le_pow_right (by decide) (by omega))
    omega

/-! ## Integers as doubles -/

/-- The least natural number that is beyond the range of doubles when it is rounded. -/
@[irreducible] def overflow : Nat :=
  (2 ^ 54 - 1) * 2 ^ 970

theorem overflow_pos : 0 < overflow := by
  unfold overflow
  positivity

theorem mul_two_pow_le {k m : Nat} (h : 54 + k ≤ 3 * m) : (2 ^ 54 - 1) * 2 ^ k ≤ 10 ^ m := by
  calc (2 ^ 54 - 1) * 2 ^ k ≤ 2 ^ 54 * 2 ^ k := Nat.mul_le_mul_right _ (by decide)
    _ = 2 ^ (54 + k) := (Nat.pow_add 2 54 k).symm
    _ ≤ 2 ^ (3 * m) := Nat.pow_le_pow_right (by decide) h
    _ = 8 ^ m := Nat.pow_mul 2 3 m
    _ ≤ 10 ^ m := Nat.pow_le_pow_left (by decide) m

theorem overflow_le_pow {m : Nat} (h : 400 ≤ m) : overflow ≤ 10 ^ m := by
  unfold overflow
  exact mul_two_pow_le (by omega)

theorem lt_overflow_iff {n : Nat} : n < overflow ↔ nearest n < 2 ^ (970 + 54) := by
  unfold overflow
  exact (nearest_lt_iff 970).symm

/-- What a natural number with a sign becomes as a double: a zero, the nearest number with 53 bits, or an infinity. -/
inductive Rounds (s : Sign) (n : Nat) : UnpackedFloat → Prop
  | zero : n = 0 → Rounds s n (.zero s)
  | normal {q : Nat} {e : Int} {u : UnpackedFloat} : Normal s q e u → -52 ≤ e → e ≤ 971 →
      q * 2 ^ (e + 52).toNat = nearest n * 2 ^ 52 → Rounds s n u
  | infinity : overflow ≤ n → Rounds s n (.infinity s)

namespace Rounds

variable {s : Sign} {n : Nat} {u : UnpackedFloat}

theorem isNaN (h : Rounds s n u) : u.isNaN = false := by
  cases h with
  | zero => rfl
  | normal hu => obtain ⟨-, -, _, rfl⟩ := hu; rfl
  | infinity => rfl

theorem isInf_iff (h : Rounds s n u) : u.isInf = true ↔ overflow ≤ n := by
  cases h with
  | zero hn =>
    have hpos := overflow_pos
    simp only [UnpackedFloat.isInf, Bool.false_eq_true, false_iff]
    omega
  | normal hu he he' hq =>
    have hlt : n < overflow := lt_overflow_iff.2 ((hu.exponent_le_iff he hq 970).1 (by omega))
    obtain ⟨-, -, _, rfl⟩ := hu
    simp only [UnpackedFloat.isInf, Bool.false_eq_true, false_iff]
    omega
  | infinity h => simp [UnpackedFloat.isInf, h]

/-- Changing the sign of a double changes the sign of the number. -/
theorem neg (h : Rounds s n u) : Rounds (-s) n (Float.Model.pack u.neg).unpack := by
  cases h with
  | zero hn =>
    have hzero : (Float.Model.pack (.zero (-s))).unpack = .zero (-s) := by cases s <;> rfl
    rw [UnpackedFloat.neg, hzero]
    exact .zero hn
  | normal hu he he' hq =>
    rw [hu.neg.unpack_pack (by omega) he']
    exact .normal hu.neg he he' hq
  | infinity h =>
    have hinfinity : (Float.Model.pack (.infinity (-s))).unpack = .infinity (-s) := unpack_packedInfinity (-s)
    rw [UnpackedFloat.neg, hinfinity]
    exact .infinity h

end Rounds

theorem rounds_toFloat (n : Nat) : Rounds .positive n (toFloat n 0).toModel.unpack := by
  have hlead : ¬(0 : Int) + ((Text.digits n).length : Nat) < -400 := by omega
  unfold toFloat
  simp only [Bool.or_eq_true, decide_eq_true_eq, hlead, or_false]
  split_ifs with hn hlong
  · exact .zero hn
  · exact .infinity ((overflow_le_pow (by omega)).trans (Text.pow_length_digits_le (Nat.pos_of_ne_zero hn)))
  · obtain ⟨u, q, e, hx, hu, he, hq⟩ := normal_ofScientific (Nat.pos_of_ne_zero hn)
    show Rounds .positive n (Float.ofScientific n false 0).toModel.unpack
    rw [hx]
    rcases Int.lt_or_le 971 e with he' | he'
    · rw [hu.unpack_pack_of_le (by omega)]
      refine .infinity (Nat.le_of_not_lt fun hlt => ?_)
      have := (hu.exponent_le_iff he hq 970).2 (lt_overflow_iff.1 hlt)
      omega
    · rw [hu.unpack_pack (by omega) he']
      exact .normal hu he he' hq

theorem rounds_ofInt (i : Int) :
    Rounds (if i < 0 then .negative else .positive) i.natAbs (ofInt i).toModel.unpack := by
  unfold ofInt
  split_ifs
  · exact (rounds_toFloat i.natAbs).neg
  · exact rounds_toFloat i.natAbs

/-- Taking the integral part of the double nearest to an integer fails exactly beyond the range of doubles. -/
theorem wholePart_ofInt (i : Int) : Json.wholePart (ofInt i) =
    if i.natAbs < overflow then .ok (Binary.ofFloat (ofInt i)).truncate else .error .infinityAsInteger := by
  have h := rounds_ofInt i
  have hnan : (ofInt i).isNaN = false := h.isNaN
  have hinf : (ofInt i).isInf = true ↔ overflow ≤ i.natAbs := h.isInf_iff
  rw [Json.wholePart, hnan, if_neg (by decide)]
  by_cases hlt : i.natAbs < overflow
  · rw [if_pos hlt, if_neg (by rw [hinf]; omega)]
  · rw [if_neg hlt, if_pos (by rw [hinf]; omega)]

end HintQuality.Decimal
