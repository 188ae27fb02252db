import HintQuality.Decimal.Binary
import Mathlib
/-!
# Rounding to a double

A fraction is rounded to the double in whose interval it lies (`roundWithAccuracy_of_near`): an interval goes half the
way to the next doubles on both sides, and its ends belong to it if the mantissa of the double is even (`Near`). The
mantissa of the fraction is shifted until as many bits are left as a double has (`shiftRight_ofFraction`); below a power
of two this leaves one bit more, which is rounded away.
-/

namespace HintQuality.Decimal

open Float.Model Float.Model.UnpackedFloat

/-! ## Division to the nearest -/

theorem divNearestEven_mul_right (m d : Nat) {c : Nat} (hc : 0 < c) :
    divNearestEven (m * c) (d * c) = divNearestEven m d := by
  simp only [divNearestEven, Nat.mul_div_mul_right _ _ hc, Nat.mul_mod_mul_right, ← Nat.mul_assoc,
    Nat.mul_lt_mul_right hc]

theorem divNearestEven_one (m : Nat) : divNearestEven m 1 = m := by
  simp [divNearestEven, Nat.mod_one]

theorem divNearestEven_mul_self (m : Nat) {c : Nat} (hc : 0 < c) : divNearestEven (m * c) c = m := by
  have h := divNearestEven_mul_right m 1 hc
  rwa [Nat.one_mul, divNearestEven_one] at h

/-- The natural number that is nearest to a fraction, a half to the even one. -/
theorem divNearestEven_eq {n d q : Nat} (hd : 0 < d) (hlow : 2 * (q * d) ≤ 2 * n + d) (hhigh : 2 * n ≤ 2 * (q * d) + d)
    (htie : 2 * (q * d) = 2 * n + d ∨ 2 * n = 2 * (q * d) + d → q % 2 = 0) : divNearestEven n d = q := by
  have hdiv : d * (n / d) + n % d = n := Nat.div_add_mod n d
  have hmod : n % d < d := Nat.mod_lt n hd
  rw [divNearestEven]
  generalize n / d = a at hdiv
  generalize n % d = r at hdiv hmod
  have hle : q ≤ a + 1 := by
    by_contra hgt
    have := Nat.mul_le_mul_right d (show a + 2 ≤ q by omega)
    rw [Nat.add_mul, Nat.mul_comm a d] at this
    omega
  have hge : a ≤ q := by
    by_contra hlt
    have := Nat.mul_le_mul_right d (show q + 1 ≤ a by omega)
    rw [Nat.add_mul, Nat.mul_comm a d] at this
    omega
  rcases Nat.lt_or_eq_of_le hle with hlt | rfl
  · obtain rfl : q = a := by omega
    rw [Nat.mul_comm q d] at hlow hhigh htie
    split_ifs with h1 h2 h3
    · rfl
    · omega
    · rfl
    · exact absurd (htie (.inr (by omega))) h3
  · rw [Nat.add_mul, Nat.mul_comm a d] at hlow hhigh htie
    split_ifs with h1 h2 h3
    · omega
    · rfl
    · have := htie (.inl (by omega))
      omega
    · rfl

/-- The quotient by the power of two that leaves 53 bits has 53 bits, or is the power of two after these. -/
theorem divNearestEven_bounds {m : Nat} (hm : m ≠ 0) {k : Nat} (hk : m.log2 = 52 + k) :
    2 ^ 52 ≤ divNearestEven m (2 ^ k) ∧ divNearestEven m (2 ^ k) ≤ 2 ^ 53 := by
  have hlow : 2 ^ 52 * 2 ^ k ≤ m := by
    rw [← Nat.pow_add, ← hk]
    exact Nat.log2_self_le hm
  have hhigh : m < 2 ^ 53 * 2 ^ k := by
    rw [← Nat.pow_add, show 53 + k = m.log2 + 1 by omega]
    exact Nat.lt_log2_self
  have hpos := Nat.two_pow_pos k
  have hq : 2 ^ 52 ≤ m / 2 ^ k := (Nat.le_div_iff_mul_le hpos).2 hlow
  have hq' : m / 2 ^ k < 2 ^ 53 := (Nat.div_lt_iff_lt_mul hpos).2 hhigh
  simp only [divNearestEven]
  split_ifs <;> omega

theorem log2_mul_two_pow {n : Nat} (hn : n ≠ 0) (k : Nat) : (n * 2 ^ k).log2 = n.log2 + k := by
  rw [Nat.log2_eq_iff (Nat.mul_ne_zero hn (Nat.two_pow_pos k).ne')]
  constructor
  · rw [Nat.pow_add]
    exact Nat.mul_le_mul_right _ (Nat.log2_self_le hn)
  · rw [Nat.add_right_comm, Nat.pow_add]
    exact Nat.mul_lt_mul_of_pos_right Nat.lt_log2_self (Nat.two_pow_pos k)

/-! ## Shifting -/

/-- The quotient of a fraction with what is known of its rest. -/
def ofFraction (n d : Nat) : ExtendedMantissa :=
  .ofMantissaAndAccuracy (n / d) (accuracyOfFraction (n % d) d)

theorem ofFraction_eq {n d : Nat} (hd : 0 < d) : ofFraction n d =
    ⟨n / d, decide (d ≤ 2 * (n % d)), decide (n % d ≠ 0 ∧ 2 * (n % d) ≠ d)⟩ := by
  rw [ofFraction, accuracyOfFraction]
  split_ifs with hzero
  · simp [ExtendedMantissa.ofMantissaAndAccuracy, hzero, Nat.not_le.2 hd]
  · rcases Nat.lt_trichotomy (2 * (n % d)) d with hlt | heq | hgt
    · rw [Nat.compare_eq_lt.2 hlt]
      simp [ExtendedMantissa.ofMantissaAndAccuracy, hzero, Nat.not_le.2 hlt, hlt.ne]
    · rw [Nat.compare_eq_eq.2 heq]
      simp [ExtendedMantissa.ofMantissaAndAccuracy, heq]
    · rw [Nat.compare_eq_gt.2 hgt]
      simp [ExtendedMantissa.ofMantissaAndAccuracy, hzero, hgt.le, hgt.ne']

/-- Shifting once halves the fraction. -/
theorem shiftRightOne_ofFraction {n d : Nat} (hd : 0 < d) :
    (ofFraction n d).shiftRightOne = ofFraction n (d * 2) := by
  have hrest : n % (d * 2) = n % d + d * (n / d % 2) := Nat.mod_mul
  have hlt : n % d < d := Nat.mod_lt n hd
  rw [ofFraction_eq hd, ofFraction_eq (Nat.mul_pos hd Nat.two_pos), ExtendedMantissa.shiftRightOne, hrest,
    Nat.div_div_eq_div_mul]
  rcases Nat.mod_two_eq_zero_or_one (n / d) with hbit | hbit <;> rw [hbit]
  · congr 1
    · simp
      omega
    · rw [← Bool.decide_or]
      exact decide_eq_decide.2 (by omega)
  · congr 1
    · simp
      omega
    · rw [← Bool.decide_or]
      exact decide_eq_decide.2 (by omega)

theorem shiftRight_ofFraction {n d : Nat} (hd : 0 < d) (k : Nat) :
    ofFraction n d >>> k = ofFraction n (d * 2 ^ k) := by
  induction k with
  | zero => rw [Nat.pow_zero, Nat.mul_one]; rfl
  | succ k ih =>
    show ExtendedMantissa.shiftRightOne (ofFraction n d >>> k) = _
    rw [ih, shiftRightOne_ofFraction (Nat.mul_pos hd (Nat.two_pow_pos k)), Nat.mul_assoc, ← Nat.pow_succ]

theorem roundedMantissa_mk (q : Nat) (half more : Bool) : (⟨q, half, more⟩ : ExtendedMantissa).roundedMantissa =
    if half then if more then q + 1 else q + q % 2 else q := by
  cases half <;> cases more <;> rfl

/-- Rounding a quotient is division to the nearest. -/
theorem roundedMantissa_ofFraction {n d : Nat} (hd : 0 < d) :
    (ofFraction n d).roundedMantissa = divNearestEven n d := by
  have hlt : n % d < d := Nat.mod_lt n hd
  rw [ofFraction_eq hd, roundedMantissa_mk, divNearestEven]
  simp only [decide_eq_true_eq]
  split_ifs <;> omega

theorem targetExponent_eq (m : Nat) (e : Int) :
    Format.binary64.targetExponent (totalExponent m e) = max ((m.log2 : Int) + e - 52) (-1074) := by
  simp only [Format.targetExponent, totalExponent, Format.mantissaBits, Format.minExponent]
  norm_num
  omega

/-- A mantissa of at most 53 bits is not shifted any more. -/
theorem shiftToTargetExponent_of_lt {q : Nat} {e : Int} (hq : q < 2 ^ 53) (he : -1074 ≤ e) :
    shiftToTargetExponent Format.binary64 q e .exact = (⟨q, false, false⟩, e) := by
  have hlog : q.log2 ≤ 52 := by
    rcases Nat.eq_zero_or_pos q with rfl | hpos
    · simp
    · exact Nat.le_of_lt_succ ((Nat.log2_lt hpos.ne').2 hq)
  have hzero : (max ((q.log2 : Int) + e - 52) (-1074) - e).toNat = 0 := by omega
  rw [shiftToTargetExponent, targetExponent_eq, shiftToExponent, hzero, Int.natCast_zero, Int.add_zero]
  rfl

/-- The power of two after the mantissas of 53 bits is shifted once. -/
theorem shiftToTargetExponent_carry {e : Int} (he : -1074 ≤ e) :
    shiftToTargetExponent Format.binary64 (2 ^ 53) e .exact = (⟨2 ^ 52, false, false⟩, e + 1) := by
  have hone : (max (((2 ^ 53 : Nat).log2 : Int) + e - 52) (-1074) - e).toNat = 1 := by
    rw [Nat.log2_two_pow]
    omega
  rw [shiftToTargetExponent, targetExponent_eq, shiftToExponent, hone]
  rfl

/-! ## Intervals -/

/-- The mantissa and the exponent of a positive double. -/
structure Canonical (m : Nat) (e : Int) : Prop where
  pos : 0 < m
  lt : m < 2 ^ 53
  le : -1074 ≤ e
  le_max : e ≤ 971
  normal : -1074 < e → 2 ^ 52 ≤ m

/-- How far the interval of a double goes down, in quarters of its last place. The double below a power of two is only
half as far away as others. -/
def below (m : Nat) (e : Int) : Nat :=
  if m = 2 ^ 52 ∧ -1074 < e then 1 else 2

/-- A number that lies in the interval of a double. -/
structure Near (x : ℚ) (m : Nat) (e : Int) : Prop where
  low : ((4 * m - below m e : Nat) : ℚ) * 2 ^ (e - 2) ≤ x
  high : x ≤ ((4 * m + 2 : Nat) : ℚ) * 2 ^ (e - 2)
  odd : m % 2 = 1 → ((4 * m - below m e : Nat) : ℚ) * 2 ^ (e - 2) < x ∧ x < ((4 * m + 2 : Nat) : ℚ) * 2 ^ (e - 2)

theorem below_le (m : Nat) (e : Int) : 1 ≤ below m e ∧ below m e ≤ 2 := by
  unfold below
  split_ifs <;> omega

section Fractions

variable {n d m : Nat} {e f : Int} {x : ℚ}

theorem zpow_pos_two (e : Int) : (0 : ℚ) < 2 ^ e :=
  zpow_pos two_pos e

/-- A power of two in quarters of a last place. -/
theorem zpow_quarters {k : Nat} (h : f = k + (e - 2)) : (2 : ℚ) ^ f = (2 ^ k : Nat) * 2 ^ (e - 2) := by
  rw [h, zpow_add₀ two_ne_zero, zpow_natCast]
  push_cast
  rfl

/-- A number in quarters of its last place. -/
theorem value_quarters (m : Nat) (e : Int) : (m : ℚ) * 2 ^ e = (4 * m : Nat) * 2 ^ (e - 2) := by
  have hplace : (2 : ℚ) ^ e = (2 ^ 2 : Nat) * 2 ^ (e - 2) := zpow_quarters (by omega)
  rw [hplace]
  push_cast
  ring

/-- A fraction in quarters of its last place. -/
theorem fraction_quarters (n d : Nat) (e : Int) : (n : ℚ) / d * 2 ^ e = (4 * n : Nat) / d * 2 ^ (e - 2) := by
  rw [div_mul_eq_mul_div, value_quarters, ← div_mul_eq_mul_div]

theorem le_fraction_iff (hd : 0 < d) (a : Nat) : (a : ℚ) * 2 ^ (e - 2) ≤ n / d * 2 ^ e ↔ a * d ≤ 4 * n := by
  rw [fraction_quarters, mul_le_mul_iff_of_pos_right (zpow_pos_two _), le_div_iff₀ (by positivity)]
  exact_mod_cast Iff.rfl

theorem fraction_le_iff (hd : 0 < d) (a : Nat) : (n : ℚ) / d * 2 ^ e ≤ a * 2 ^ (e - 2) ↔ 4 * n ≤ a * d := by
  rw [fraction_quarters, mul_le_mul_iff_of_pos_right (zpow_pos_two _), div_le_iff₀ (by positivity)]
  exact_mod_cast Iff.rfl

/-- The same fraction with another power of two. -/
theorem fraction_rescale (n d : Nat) (h : e ≤ f) :
    (n : ℚ) / d * 2 ^ e = n / (d * 2 ^ (f - e).toNat : Nat) * 2 ^ f := by
  obtain ⟨k, hk⟩ := Int.le.dest h
  have hexp : (f - e).toNat = k := by omega
  rw [hexp, ← hk, zpow_add₀ two_ne_zero, zpow_natCast]
  push_cast
  field_simp

/-- A number between the ends of the interval. -/
theorem near_of_lt (hlow : ((4 * m - below m e : Nat) : ℚ) * 2 ^ (e - 2) < x)
    (hhigh : x < ((4 * m + 2 : Nat) : ℚ) * 2 ^ (e - 2)) : Near x m e :=
  ⟨hlow.le, hhigh.le, fun _ => ⟨hlow, hhigh⟩⟩

/-- A double lies between the ends of its interval. -/
theorem Canonical.between (hc : Canonical m e) :
    ((4 * m - below m e : Nat) : ℚ) * 2 ^ (e - 2) < m * 2 ^ e ∧ (m : ℚ) * 2 ^ e < (4 * m + 2 : Nat) * 2 ^ (e - 2) := by
  have hbelow := below_le m e
  have hpos := hc.pos
  rw [value_quarters m]
  refine ⟨mul_lt_mul_of_pos_right ?_ (zpow_pos_two _), mul_lt_mul_of_pos_right ?_ (zpow_pos_two _)⟩
  · exact_mod_cast (show 4 * m - below m e < 4 * m by omega)
  · exact_mod_cast (show 4 * m < 4 * m + 2 by omega)

/-- A double lies in its interval. -/
theorem near_self (hc : Canonical m e) : Near (m * 2 ^ e) m e :=
  near_of_lt hc.between.1 hc.between.2

theorem Near.quarters_le (h : Near x m e) {a : Nat} (ha : a ≤ 4 * m - below m e) : (a : ℚ) * 2 ^ (e - 2) ≤ x :=
  (mul_le_mul_of_nonneg_right (Nat.cast_le.2 ha) (zpow_pos_two _).le).trans h.low

theorem Near.lt_quarters (h : Near x m e) {a : Nat} (ha : 4 * m + 2 < a) : x < (a : ℚ) * 2 ^ (e - 2) :=
  h.high.trans_lt (mul_lt_mul_of_pos_right (Nat.cast_lt.2 ha) (zpow_pos_two _))

/-- A number in the interval of a double is below the power of two behind the mantissas. -/
theorem Near.lt_zpow (h : Near x m e) (hc : Canonical m e) : x < 2 ^ (53 + e) := by
  have hlt := hc.lt
  have hend : (2 : ℚ) ^ (53 + e) = (2 ^ 55 : Nat) * 2 ^ (e - 2) := zpow_quarters (by omega)
  rw [hend]
  exact h.lt_quarters (by omega)

/-- A number in the interval of a double is at least half the last place. -/
theorem Near.least (h : Near x m e) (hm : 0 < m) : 2 ^ (e - 1) ≤ x := by
  have hbelow := below_le m e
  have hhalf : (2 : ℚ) ^ (e - 1) = (2 ^ 1 : Nat) * 2 ^ (e - 2) := zpow_quarters (by omega)
  rw [hhalf]
  exact h.quarters_le (by omega)

/-- A number in the interval of a double of 53 bits is at least half the least mantissa. -/
theorem Near.zpow_le (h : Near x m e) (hm : 2 ^ 52 ≤ m) : 2 ^ (51 + e) ≤ x := by
  have hbelow := below_le m e
  have hhalf : (2 : ℚ) ^ (51 + e) = (2 ^ 53 : Nat) * 2 ^ (e - 2) := zpow_quarters (by omega)
  rw [hhalf]
  exact h.quarters_le (by omega)

theorem zpow_log2_le (hd : 0 < d) (ha : n / d ≠ 0) (e : Int) : (2 : ℚ) ^ ((n / d).log2 + e) ≤ n / d * 2 ^ e := by
  rw [zpow_add₀ two_ne_zero, zpow_natCast]
  refine mul_le_mul_of_nonneg_right ?_ (zpow_pos_two _).le
  have hself : 2 ^ (n / d).log2 * d ≤ n := (Nat.mul_le_mul_right d (Nat.log2_self_le ha)).trans (Nat.div_mul_le_self n d)
  rw [le_div_iff₀ (by positivity)]
  exact_mod_cast hself

theorem lt_zpow_log2 (hd : 0 < d) (e : Int) : (n : ℚ) / d * 2 ^ e < 2 ^ ((n / d).log2 + 1 + e) := by
  have hexp : (((n / d).log2 : Nat) : Int) + 1 + e = ((n / d).log2 + 1 : Nat) + e := by push_cast; ring
  rw [hexp, zpow_add₀ two_ne_zero, zpow_natCast]
  refine mul_lt_mul_of_pos_right ?_ (zpow_pos_two _)
  have hself : n < 2 ^ ((n / d).log2 + 1) * d :=
    (Nat.div_lt_iff_lt_mul hd).1 Nat.lt_log2_self
  rw [div_lt_iff₀ (by positivity)]
  exact_mod_cast hself

end Fractions

/-! ## Rounding -/

section Rounding

variable {s : Sign} {n d m : Nat} {e f : Int}

/-- A fraction in the interval of a double is divided to its mantissa. -/
theorem Near.divNearestEven_eq (hd : 0 < d) (h : Near ((n : ℚ) / d * 2 ^ e) m e) : divNearestEven n d = m := by
  have hlow := (le_fraction_iff hd _).1 h.low
  have hhigh := (fraction_le_iff hd _).1 h.high
  have hodd : m % 2 = 1 → ¬4 * n ≤ (4 * m - below m e) * d ∧ ¬(4 * m + 2) * d ≤ 4 * n := fun hm =>
    ⟨fun hle => not_lt_of_ge ((fraction_le_iff hd _).2 hle) (h.odd hm).1,
      fun hle => not_lt_of_ge ((le_fraction_iff hd _).2 hle) (h.odd hm).2⟩
  have hbelow : below m e * d ≤ 2 * d := Nat.mul_le_mul_right d (below_le m e).2
  rw [Nat.sub_mul, Nat.mul_assoc] at hlow hodd
  rw [Nat.add_mul, Nat.mul_assoc] at hhigh hodd
  refine Decimal.divNearestEven_eq hd (by omega) (by omega) fun htie => ?_
  by_contra hm
  obtain ⟨hlow', hhigh'⟩ := hodd (by omega)
  omega

/-- The exponent that a fraction is shifted to. -/
def shiftedTo (n d : Nat) (e : Int) : Int :=
  max (((n / d).log2 : Int) + e - 52) (-1074)

/-- Rounding a fraction divides it to the nearest at the exponent that it is shifted to, and shifts again if the
mantissa got too long. -/
theorem roundWithAccuracy_fraction (hd : 0 < d) (hle : e ≤ shiftedTo n d e) {e' : Int}
    (hsecond : shiftToTargetExponent Format.binary64 (divNearestEven n (d * 2 ^ (shiftedTo n d e - e).toNat))
      (shiftedTo n d e) .exact = (⟨m, false, false⟩, e')) (hm : 0 < m) :
    roundWithAccuracy Format.binary64 s (n / d) e (accuracyOfFraction (n % d) d) = .finite s m e' hm := by
  have hfirst : shiftToTargetExponent Format.binary64 (n / d) e (accuracyOfFraction (n % d) d) =
      (ofFraction n (d * 2 ^ (shiftedTo n d e - e).toNat), shiftedTo n d e) := by
    rw [shiftToTargetExponent, targetExponent_eq, shiftToExponent, ← shiftRight_ofFraction hd]
    show (_, e + ((shiftedTo n d e - e).toNat : Int)) = _
    rw [Int.toNat_of_nonneg (by omega)]
    congr 1
    omega
  rw [roundWithAccuracy]
  simp only [hfirst, roundedMantissa_ofFraction (Nat.mul_pos hd (Nat.two_pow_pos _)), hsecond]
  rw [dif_neg hm.ne']

/-- The exponent that a fraction in the interval of a double is shifted to is that of the double, or the one below if
the fraction is below a power of two. -/
theorem shiftedTo_of_near (hd : 0 < d) (hc : Canonical m e) (hlarge : f ≤ -1074 ∨ 2 ^ 52 * d ≤ n)
    (h : Near ((n : ℚ) / d * 2 ^ f) m e) : f ≤ shiftedTo n d f ∧ (shiftedTo n d f = e ∨
      shiftedTo n d f = e - 1 ∧ m = 2 ^ 52 ∧ -1074 < e ∧ (n : ℚ) / d * 2 ^ f < 2 ^ (52 + e)) := by
  have hmin := hc.le
  have hupper : (n : ℚ) / d * 2 ^ f < 2 ^ (((n / d).log2 : Int) + 1 + f) := lt_zpow_log2 hd f
  have hle : f ≤ shiftedTo n d f := by
    rw [shiftedTo]
    rcases hlarge with hf | hn
    · omega
    · have hbits : 52 ≤ (n / d).log2 :=
        (Nat.le_log2 (Nat.div_pos (by omega) hd).ne').2 ((Nat.le_div_iff_mul_le hd).2 hn)
      omega
  have hlog : ((n / d).log2 : Int) + f - 52 ≤ e := by
    rcases Nat.eq_zero_or_pos (n / d) with hzero | hpos
    · have hf : f ≤ -1074 := hlarge.resolve_right fun hn => by
        have := Nat.div_pos (show d ≤ n by omega) hd
        omega
      rw [hzero, Nat.log2_zero]
      omega
    · have := (zpow_lt_zpow_iff_right₀ one_lt_two).1 ((zpow_log2_le hd hpos.ne' f).trans_lt (h.lt_zpow hc))
      omega
  refine ⟨hle, ?_⟩
  rcases hmin.eq_or_lt with hsub | hnormal
  · rw [shiftedTo]
    omega
  · have hm := hc.normal hnormal
    have hlow := (zpow_lt_zpow_iff_right₀ one_lt_two).1 ((h.zpow_le hm).trans_lt hupper)
    rcases hlog.eq_or_lt with heq | hlt
    · rw [shiftedTo]
      omega
    · have hexp : ((n / d).log2 : Int) + 1 + f = 52 + e := by omega
      rw [hexp] at hupper
      refine .inr ⟨by rw [shiftedTo]; omega, ?_, hnormal, hupper⟩
      -- a greater mantissa would keep its interval above the power of two
      by_contra hne
      have hbelow := below_le m e
      have hend : (2 : ℚ) ^ (52 + e) = (2 ^ 54 : Nat) * 2 ^ (e - 2) := zpow_quarters (by omega)
      rw [hend] at hupper
      exact absurd (h.quarters_le (by omega)) (not_le_of_gt hupper)

/-- A fraction in the interval of a double is rounded to it, if its quotient has enough bits. -/
theorem roundWithAccuracy_of_near (hd : 0 < d) (hc : Canonical m e) (hlarge : f ≤ -1074 ∨ 2 ^ 52 * d ≤ n)
    (h : Near ((n : ℚ) / d * 2 ^ f) m e) :
    roundWithAccuracy Format.binary64 s (n / d) f (accuracyOfFraction (n % d) d) = .finite s m e hc.pos := by
  obtain ⟨hle, hto⟩ := shiftedTo_of_near hd hc hlarge h
  have hd' : 0 < d * 2 ^ (shiftedTo n d f - f).toNat := Nat.mul_pos hd (Nat.two_pow_pos _)
  refine roundWithAccuracy_fraction hd hle ?_ hc.pos
  rw [fraction_rescale n d hle] at h hto
  generalize d * 2 ^ (shiftedTo n d f - f).toNat = d' at *
  rcases hto with hto | ⟨hto, rfl, he, hbelow⟩
  · rw [hto] at h ⊢
    rw [h.divNearestEven_eq hd']
    exact shiftToTargetExponent_of_lt hc.lt hc.le
  · -- the quotient is rounded up to the power of two and shifted once more
    have hquarter : (2 : ℚ) ^ (e - 2) = (2 ^ 1 : Nat) * 2 ^ (e - 1 - 2) := zpow_quarters (by omega)
    have hend : (2 : ℚ) ^ (52 + e) = (2 ^ 55 : Nat) * 2 ^ (e - 1 - 2) := zpow_quarters (by omega)
    have hnumerator : ((4 * 2 ^ 52 - below (2 ^ 52) e : Nat) : ℚ) * 2 ^ (e - 2) =
        (2 * (2 ^ 54 - 1) : Nat) * 2 ^ (e - 1 - 2) := by
      rw [below, if_pos ⟨rfl, he⟩, hquarter, ← mul_assoc]
      norm_num
    have hlow := h.low
    rw [hnumerator, hto, le_fraction_iff hd'] at hlow
    rw [hend, hto] at hbelow
    have hhigh := (fraction_le_iff hd' _).1 hbelow.le
    have hcarry : divNearestEven n d' = 2 ^ 53 :=
      Decimal.divNearestEven_eq hd' (by omega) (by omega) fun _ => by decide
    have hshift := shiftToTargetExponent_carry (e := e - 1) (by omega)
    rwa [← hcarry, Int.sub_add_cancel, ← hto] at hshift

end Rounding

/-! ## Products and quotients -/

section Arithmetic

variable {s₁ s₂ : Sign} {m₁ m₂ m : Nat} {e₁ e₂ e : Int} {h₁ : 0 < m₁} {h₂ : 0 < m₂}

/-- A product is rounded to the double in whose interval it lies, if it has enough bits. -/
theorem mul_of_near (hc : Canonical m e) (hlarge : 2 ^ 52 ≤ m₁ * m₂)
    (h : Near ((m₁ : ℚ) * m₂ * 2 ^ (e₁ + e₂)) m e) :
    UnpackedFloat.mul Format.binary64 (.finite s₁ m₁ e₁ h₁) (.finite s₂ m₂ e₂ h₂) =
      .finite (s₁ * s₂) m e hc.pos := by
  have hfraction : ((m₁ * m₂ : Nat) : ℚ) / (1 : Nat) * 2 ^ (e₁ + e₂) = m₁ * m₂ * 2 ^ (e₁ + e₂) := by
    push_cast
    rw [div_one]
  have hround := roundWithAccuracy_of_near (s := s₁ * s₂) (n := m₁ * m₂) Nat.one_pos hc
    (.inr (by omega)) (hfraction ▸ h)
  rwa [Nat.div_one, Nat.mod_one] at hround

/-- A quotient is rounded to the double in whose interval it lies. -/
theorem div_of_near (hc : Canonical m e) (h : Near ((m₁ : ℚ) / m₂ * 2 ^ (e₁ - e₂)) m e) :
    UnpackedFloat.div Format.binary64 (.finite s₁ m₁ e₁ h₁) (.finite s₂ m₂ e₂ h₂) =
      .finite (s₁ / s₂) m e hc.pos := by
  obtain ⟨f, hf⟩ : ∃ f, f = min (e₁ - e₂) (Format.binary64.targetExponent
      (totalExponent m₁ e₁ - totalExponent m₂ e₂)) := ⟨_, rfl⟩
  obtain ⟨k, hk⟩ : ∃ k : Nat, f + k = e₁ - e₂ := ⟨(e₁ - e₂ - f).toNat, by omega⟩
  have hshift : (e₁ - e₂ - f).toNat = k := by omega
  have htarget : f ≤ -1074 ∨ f ≤ (m₁.log2 : Int) - m₂.log2 + (e₁ - e₂) - 53 := by
    have hmax : Format.binary64.targetExponent (totalExponent m₁ e₁ - totalExponent m₂ e₂) =
        max (totalExponent m₁ e₁ - totalExponent m₂ e₂ - 53) (-1074) := rfl
    rw [hmax, totalExponent, totalExponent] at hf
    omega
  have hlarge : f ≤ -1074 ∨ 2 ^ 52 * m₂ ≤ m₁ * 2 ^ k := by
    refine htarget.imp_right fun hlog => ?_
    calc 2 ^ 52 * m₂ ≤ 2 ^ 52 * 2 ^ (m₂.log2 + 1) := Nat.mul_le_mul_left _ Nat.lt_log2_self.le
      _ = 2 ^ (52 + (m₂.log2 + 1)) := (Nat.pow_add 2 _ _).symm
      _ ≤ 2 ^ (m₁.log2 + k) := Nat.pow_le_pow_right Nat.two_pos (by omega)
      _ = 2 ^ m₁.log2 * 2 ^ k := Nat.pow_add 2 _ _
      _ ≤ m₁ * 2 ^ k := Nat.mul_le_mul_right _ (Nat.log2_self_le h₁.ne')
  have hfraction : (m₁ : ℚ) / m₂ * 2 ^ (e₁ - e₂) = ((m₁ * 2 ^ k : Nat) : ℚ) / m₂ * 2 ^ f := by
    rw [← hk, zpow_add₀ two_ne_zero, zpow_natCast]
    push_cast
    ring
  rw [UnpackedFloat.div, divCore]
  simp only [← hf, hshift, Nat.shiftLeft_eq]
  exact roundWithAccuracy_of_near h₂ hc hlarge (hfraction ▸ h)

end Arithmetic

end HintQuality.Decimal
