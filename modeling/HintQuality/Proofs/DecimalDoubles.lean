import HintQuality.Proofs.DecimalText
import HintQuality.Proofs.Packing
import Mathlib
/-!
# Decimals as doubles

A decimal in the interval of a double is read as that double (`toFloat_of_near`). Few digits with a small power of ten
are converted and multiplied by the power or divided by it, both of which are doubles then
(`toModel_ofScientific_of_small`, `unpack_powerOfTen`); others are multiplied or divided before they are rounded.
-/

namespace HintQuality.Decimal

open Float.Model Float.Model.UnpackedFloat

/-! ## Numbers of 53 bits -/

/-- How many bits a number lacks of 53. -/
def room (n : Nat) : Nat :=
  52 - n.log2

theorem room_le (n : Nat) : room n ≤ 52 :=
  Nat.sub_le _ _

section Room

variable {n : Nat} {e : Int}

/-- A number of at most 53 bits is the mantissa of a double when it is shifted. -/
theorem canonical_shifted (hpos : 0 < n) (hn : n < 2 ^ 53) (he : -1022 ≤ e) (he' : e ≤ 971) :
    Canonical (n * 2 ^ room n) (e - room n) := by
  have hlog : n.log2 < 53 := (Nat.log2_lt hpos.ne').2 hn
  have hfull : (n * 2 ^ room n).log2 = 52 := by
    rw [log2_mul_two_pow hpos.ne', room]
    omega
  obtain ⟨hlow, hhigh⟩ := (Nat.log2_eq_iff (by positivity)).1 hfull
  have hroom := room_le n
  exact ⟨by positivity, hhigh, by omega, by omega, fun _ => hlow⟩

/-- Shifting keeps the value. -/
theorem shifted_value (n : Nat) (e : Int) : ((n * 2 ^ room n : Nat) : ℚ) * 2 ^ (e - room n) = n * 2 ^ e := by
  have hroom : (2 : ℚ) ^ room n ≠ 0 := by positivity
  rw [zpow_sub₀ two_ne_zero, zpow_natCast]
  push_cast
  field_simp

/-- A number of at most 53 bits is shifted to the left and then has nothing to round. -/
theorem round_eq {n : Nat} (hpos : 0 < n) (hn : n < 2 ^ 53) : UnpackedFloat.round Format.binary64 .positive n 0 =
    roundWithAccuracy Format.binary64 .positive (n * 2 ^ (52 - n.log2)) (-((52 - n.log2 : Nat) : Int)) .exact := by
  have hlog : n.log2 < 53 := (Nat.log2_lt (by omega)).2 hn
  have hshift : (0 - max ((n.log2 : Int) + 0 - 52) (-1074)).toNat = 52 - n.log2 := by omega
  rw [UnpackedFloat.round, targetExponent_eq, decreaseExponent, hshift, Nat.shiftLeft_eq]
  simp

/-- A number of at most 53 bits is converted without rounding. -/
theorem unpack_ofUInt64 (hpos : 0 < n) (hn : n < 2 ^ 53) : (Float.Model.ofUInt64 n.toUInt64).unpack =
    .finite .positive (n * 2 ^ room n) (0 - room n) (by positivity) := by
  have hc : Canonical (n * 2 ^ room n) (0 - room n) := canonical_shifted hpos hn (by omega) (by omega)
  have hroom := room_le n
  have hfull := hc.normal (by omega)
  have hword : n.toUInt64.toNat = n := by
    rw [Nat.toUInt64_eq, UInt64.toNat_ofNat', Nat.mod_eq_of_lt (by omega)]
  have hsign : compare (n : Int) 0 = .gt := compare_gt_iff_gt.2 (by omega)
  have hround : UnpackedFloat.ofUInt64 Format.binary64 n.toUInt64 =
      UnpackedFloat.round Format.binary64 .positive n 0 := by
    rw [UnpackedFloat.ofUInt64, UnpackedFloat.ofNat, UnpackedFloat.ofInt, UnpackedFloat.normalize, hword, hsign]
    rfl
  have hself := near_self hc
  have hfraction : ((n * 2 ^ room n : Nat) : ℚ) / (1 : Nat) * 2 ^ (0 - (room n : Int)) =
      (n * 2 ^ room n : Nat) * 2 ^ (0 - (room n : Int)) := by
    rw [Nat.cast_one, div_one]
  have hexact := roundWithAccuracy_of_near (s := .positive) Nat.one_pos hc
    (.inr (by omega)) (hfraction ▸ hself)
  rw [Nat.div_one, Nat.mod_one] at hexact
  rw [Float.Model.ofUInt64, hround, round_eq hpos hn, ← Int.zero_sub]
  exact (congrArg (fun u => (Float.Model.pack u).unpack) hexact).trans (hc.unpack_pack .positive)

theorem toBits_powerOfTen : ∀ k : Fin Float.exactlyRepresentablePowersOfTen.size,
    (Float.exactlyRepresentablePowersOfTen[k.1]).toModel.toBits = (Float.Model.pack (.finite .positive (5 ^ k.1 * 2 ^ room (5 ^ k.1)) (k.1 - room (5 ^ k.1))
      (by positivity))).toBits := by
  decide +kernel

/-- The powers of ten up to 22 are doubles. -/
theorem unpack_powerOfTen {k : Nat} (hk : k < Float.exactlyRepresentablePowersOfTen.size) :
    (Float.exactlyRepresentablePowersOfTen[k]).toModel.unpack =
    .finite .positive (5 ^ k * 2 ^ room (5 ^ k)) (k - room (5 ^ k)) (by positivity) := by
  have hk' : k < 23 := hk
  have hpow : 5 ^ k < 2 ^ 53 := (Nat.pow_le_pow_right (by decide) (Nat.le_of_lt_succ hk)).trans_lt (by decide)
  have hc : Canonical (5 ^ k * 2 ^ room (5 ^ k)) (k - room (5 ^ k)) :=
    canonical_shifted (by positivity) hpow (by omega) (by omega)
  rw [Float.Model.unpack, toBits_powerOfTen ⟨k, hk⟩]
  exact hc.unpack_pack .positive

end Room

/-! ## Decimals -/

section Decimals

variable {n m : Nat} {x e : Int}

/-- Few digits with a small power of ten are multiplied by it or divided by it as doubles. -/
theorem toModel_ofScientific_of_small (hc : Canonical m e) (hpos : 0 < n) (hn : n < 2 ^ 53) (hx : x.natAbs < Float.exactlyRepresentablePowersOfTen.size)
    (h : Near (n * 10 ^ x) m e) : (Float.ofScientific n (x < 0) x.natAbs).toModel =
      Float.Model.pack (.finite .positive m e hc.pos) := by
  have hsmall : n < 2 ^ 53 ∧ x.natAbs ≤ 22 := ⟨hn, Nat.le_of_lt_succ hx⟩
  have hnumber := unpack_ofUInt64 hpos hn
  have hpower := unpack_powerOfTen hx
  have hvalue := shifted_value n 0
  have hvalue' := shifted_value (5 ^ x.natAbs) x.natAbs
  have hten : ((5 ^ x.natAbs : Nat) : ℚ) * 2 ^ (x.natAbs : Int) = 10 ^ x.natAbs := by
    rw [zpow_natCast, Nat.cast_pow, ← mul_pow]
    norm_num
  rw [hten] at hvalue'
  rw [zpow_zero, mul_one] at hvalue
  have hfull := (canonical_shifted (e := 0) hpos hn (by omega) (by omega)).normal (by have := room_le n; omega)
  rw [Float.ofScientific, dif_pos hsmall]
  split_ifs with hneg
  · have hexp : x = -(x.natAbs : Int) := by
      have := of_decide_eq_true hneg
      omega
    show Float.Model.pack (UnpackedFloat.div Format.binary64 (Float.Model.ofUInt64 n.toUInt64).unpack
      (Float.exactlyRepresentablePowersOfTen[x.natAbs]).toModel.unpack) = _
    rw [hnumber, hpower]
    refine congrArg Float.Model.pack (div_of_near hc ?_)
    rw [zpow_sub₀ two_ne_zero, div_mul_div_comm, hvalue, hvalue']
    rwa [hexp, zpow_neg, zpow_natCast, ← div_eq_mul_inv] at h
  · have hexp : x = (x.natAbs : Int) := by
      have := of_decide_eq_false (eq_false_of_ne_true hneg)
      omega
    show Float.Model.pack (UnpackedFloat.mul Format.binary64 (Float.Model.ofUInt64 n.toUInt64).unpack
      (Float.exactlyRepresentablePowersOfTen[x.natAbs]).toModel.unpack) = _
    rw [hnumber, hpower]
    refine congrArg Float.Model.pack (mul_of_near hc ?_ ?_)
    · exact hfull.trans (Nat.le_mul_of_pos_right _ (by positivity))
    · rw [zpow_add₀ two_ne_zero, mul_mul_mul_comm, hvalue, hvalue']
      rwa [hexp, zpow_natCast] at h

/-- Other digits are multiplied by the power of ten or divided by it before they are rounded. -/
theorem ofScientific_of_near (hc : Canonical m e) (hpos : 0 < n) (hx : -(2048 + n.log2) ≤ x ∧ x ≤ 2048)
    (h : Near (n * 10 ^ x) m e) :
    UnpackedFloat.ofScientific Format.binary64 n x = .finite .positive m e hc.pos := by
  have hgreat : ¬x > 2 ^ Format.binary64.exponentBits := by
    show ¬x > 2 ^ 11
    omega
  have hsmall : ¬x < -((2 : Int) ^ Format.binary64.exponentBits + n.log2) := by
    show ¬x < -((2 : Int) ^ 11 + n.log2)
    omega
  rw [UnpackedFloat.ofScientific, dif_neg hpos.ne', if_neg hgreat, if_neg hsmall]
  split_ifs with hsign
  · obtain ⟨k, rfl⟩ := Int.eq_ofNat_of_zero_le hsign
    have hbits : Format.binary64.mantissaBits = 53 := rfl
    have hvalue : ((n * 2 ^ 53 : Nat) : ℚ) * (10 ^ k : Nat) * 2 ^ (-((53 : Nat) : Int) + 0) = n * 10 ^ (k : Int) := by
      rw [zpow_natCast]
      push_cast
      norm_num
      ring
    have hlarge : 2 ^ 52 ≤ n * 2 ^ 53 * 10 ^ k := by
      have := Nat.le_mul_of_pos_right (n * 2 ^ 53) (show 0 < 10 ^ k by positivity)
      omega
    rw [← hvalue] at h
    simp only [hbits, Nat.shiftLeft_eq, Int.toNat_natCast]
    exact mul_of_near hc hlarge h
  · obtain ⟨k, rfl⟩ := Int.exists_eq_neg_ofNat (show x ≤ 0 by omega)
    have hexp : (- -(k : Int)).toNat = k := by omega
    have hvalue : ((n : Nat) : ℚ) / (10 ^ k : Nat) * 2 ^ ((0 : Int) - 0) = n * 10 ^ (-(k : Int)) := by
      rw [zpow_neg, zpow_natCast]
      push_cast
      norm_num
      rfl
    rw [← hvalue] at h
    simp only [hexp]
    exact div_of_near hc h

/-- A power of two to a power is less than that of ten. -/
theorem two_zpow_le {k : Int} (hk : 0 ≤ k) : (2 : ℚ) ^ (3 * k) ≤ 10 ^ k := by
  obtain ⟨j, rfl⟩ := Int.eq_ofNat_of_zero_le hk
  rw [zpow_mul, zpow_natCast, zpow_natCast]
  exact pow_le_pow_left₀ (by norm_num) (by norm_num) j

theorem le_two_zpow {k : Int} (hk : k ≤ 0) : (10 : ℚ) ^ k ≤ 2 ^ (3 * k) := by
  have h := two_zpow_le (k := -k) (by omega)
  rw [mul_neg, zpow_neg, zpow_neg] at h
  exact (inv_le_inv₀ (zpow_pos_two _) (by positivity)).1 h

/-- The digits of a decimal in the interval of a double are at places that are read. -/
theorem lead_of_near (hc : Canonical m e) (hpos : 0 < n) (h : Near (n * 10 ^ x) m e) :
    -400 ≤ x + ((Text.digits n).length : Nat) ∧ x + ((Text.digits n).length : Nat) ≤ 400 := by
  have hlow : (2 : ℚ) ^ (e - 1) ≤ n * 10 ^ x := h.least hc.pos
  have hhigh : (n : ℚ) * 10 ^ x < 2 ^ (53 + e) := h.lt_zpow hc
  have hfirst : (10 : ℚ) ^ (x + ((Text.digits n).length : Nat) - 1) ≤ n * 10 ^ x := by
    obtain ⟨k, hk⟩ := Nat.exists_eq_succ_of_ne_zero (List.length_pos_iff.2 (Text.digits_ne_nil n)).ne'
    have hle := Text.pow_length_digits_le hpos
    rw [hk, Nat.succ_sub_one] at hle
    have hexp : x + (k.succ : Int) - 1 = k + x := by
      push_cast
      ring
    rw [hk, hexp, zpow_add₀ (by norm_num), zpow_natCast]
    exact mul_le_mul_of_nonneg_right (by exact_mod_cast hle) (by positivity)
  have hbehind : (n : ℚ) * 10 ^ x < 10 ^ (x + ((Text.digits n).length : Nat)) := by
    rw [add_comm x, zpow_add₀ (by norm_num), zpow_natCast]
    exact mul_lt_mul_of_pos_right (by exact_mod_cast Text.lt_pow_length_digits n) (by positivity)
  have hmin := hc.le
  have hmax := hc.le_max
  generalize x + ((Text.digits n).length : Int) = lead at *
  constructor
  · by_contra hlt
    have := (zpow_lt_zpow_iff_right₀ one_lt_two).1 ((hlow.trans_lt hbehind).trans_le (le_two_zpow (by omega)))
    omega
  · by_contra hlt
    have := (zpow_lt_zpow_iff_right₀ one_lt_two).1 (((two_zpow_le (by omega)).trans hfirst).trans_lt hhigh)
    omega

/-- **A decimal in the interval of a double is read as that double.** -/
theorem toFloat_of_near (hc : Canonical m e) (hpos : 0 < n) (h : Near (n * 10 ^ x) m e) :
    (toFloat n x).toModel = Float.Model.pack (.finite .positive m e hc.pos) := by
  obtain ⟨hlow, hhigh⟩ := lead_of_near hc hpos h
  have hlength : (Text.digits n).length - 1 ≤ n.log2 :=
    (Nat.le_log2 hpos.ne').2 ((Nat.pow_le_pow_left (by decide) _).trans (Text.pow_length_digits_le hpos))
  have hlow' : ¬(n = 0 || decide (x + ((Text.digits n).length : Nat) < -400)) = true := by
    simp only [Bool.or_eq_true, decide_eq_true_eq]
    omega
  rw [toFloat]
  simp only [if_neg hlow', if_neg (Int.not_lt.2 hhigh)]
  by_cases hsmall : n < 2 ^ 53 ∧ x.natAbs ≤ 22
  · exact toModel_ofScientific_of_small hc hpos hsmall.1 (Nat.lt_succ_of_le hsmall.2) h
  · have hexp : (if decide (x < 0) = true then Int.negOfNat x.natAbs else Int.ofNat x.natAbs) = x := by
      split_ifs with hneg
      · have := of_decide_eq_true hneg
        rw [Int.negOfNat_eq, Int.ofNat_eq_natCast]
        omega
      · have := of_decide_eq_false (eq_false_of_ne_true hneg)
        rw [Int.ofNat_eq_natCast]
        omega
    have hround := ofScientific_of_near hc hpos (by omega) h
    rw [Float.ofScientific, dif_neg hsmall]
    show Float.Model.pack (UnpackedFloat.ofScientific Format.binary64 n _) = _
    rw [hexp, hround]

end Decimals

end HintQuality.Decimal
