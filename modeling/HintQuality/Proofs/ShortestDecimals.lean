import HintQuality.Decimal.Shortest
import HintQuality.Proofs.Rounding
import Mathlib
/-!
# The shortest decimals

The shortest decimal of a double lies in its interval (`near_shortest`): with seventeen digits one of the two
neighbours of the double does (`exists_nearestOf`), since the grid of these digits is finer than the interval is wide.
The number of digits before the point is found on the way (`magnitudeFrom_bounds`).
-/

namespace HintQuality.Decimal

/-! ## Fractions -/

/-- The decimal as a number. -/
def Scaled.toRat (s : Scaled) : ℚ :=
  s.digits * 10 ^ s.exponent

theorem Scaled.fraction_pos (s : Scaled) : 0 < s.fraction.2 := by
  unfold Scaled.fraction
  split_ifs
  · exact Nat.one_pos
  · exact Nat.pow_pos (by decide)

theorem Scaled.toRat_eq (s : Scaled) : s.toRat = s.fraction.1 / s.fraction.2 := by
  unfold Scaled.toRat Scaled.fraction
  split_ifs with h
  · obtain ⟨k, hk⟩ := Int.eq_ofNat_of_zero_le h
    rw [hk]
    simp
  · obtain ⟨k, hk⟩ := Int.exists_eq_neg_ofNat (show s.exponent ≤ 0 by omega)
    rw [hk]
    simp [div_eq_mul_inv]

/-- The quotient of natural numbers is the integral part of the fraction. -/
theorem div_bounds (n : Nat) {d : Nat} (hd : 0 < d) : ((n / d : Nat) : ℚ) ≤ n / d ∧ (n : ℚ) / d < (n / d : Nat) + 1 := by
  rw [← Nat.floor_div_eq_div (K := ℚ)]
  exact ⟨Nat.floor_le (by positivity), Nat.lt_floor_add_one _⟩

/-! ## Intervals -/

section Intervals

variable {i : Interval} {s : Scaled} {b : Binary}

/-- Whether a decimal lies in an interval. -/
theorem Scaled.within_iff (hden : 0 < i.den) : s.within i = true ↔
    if i.closed then (i.low : ℚ) / i.den ≤ s.toRat ∧ s.toRat ≤ i.high / i.den
    else (i.low : ℚ) / i.den < s.toRat ∧ s.toRat < i.high / i.den := by
  have hpos := s.fraction_pos
  have hden' : (0 : ℚ) < i.den := by exact_mod_cast hden
  have hpos' : (0 : ℚ) < s.fraction.2 := by exact_mod_cast hpos
  rw [Scaled.within, Interval.contains, Scaled.toRat_eq, div_le_div_iff₀ hden' hpos', div_le_div_iff₀ hpos' hden',
    div_lt_div_iff₀ hden' hpos', div_lt_div_iff₀ hpos' hden']
  split_ifs <;> simp only [Bool.and_eq_true, decide_eq_true_eq] <;> norm_cast

theorem Interval.den_pos (b : Binary) : 0 < (Interval.ofBinary b).den := by
  unfold Interval.ofBinary
  dsimp only
  split_ifs
  · exact Nat.one_pos
  · exact Nat.two_pow_pos _

/-- An interval is given in quarters of the last place. -/
theorem Interval.quarters (b : Binary) (n : Nat) :
    ((n * (if 2 ≤ b.exponent then twoTo (b.exponent - 2).toNat else 1) : Nat) : ℚ) / (Interval.ofBinary b).den =
      n * 2 ^ (b.exponent - 2) := by
  unfold Interval.ofBinary
  dsimp only
  split_ifs with h
  · obtain ⟨k, hk⟩ := Int.eq_ofNat_of_zero_le (show 0 ≤ b.exponent - 2 by omega)
    rw [hk]
    simp
  · obtain ⟨k, hk⟩ := Int.exists_eq_neg_ofNat (show b.exponent - 2 ≤ 0 by omega)
    have hexp : (2 - b.exponent).toNat = k := by omega
    rw [hk, hexp]
    simp [div_eq_mul_inv]

theorem Interval.value_eq (b : Binary) : ((Interval.ofBinary b).value : ℚ) / (Interval.ofBinary b).den =
    b.mantissa * 2 ^ b.exponent := by
  rw [value_quarters]
  exact Interval.quarters b (4 * b.mantissa)

/-- A decimal lies in the interval of a double if it is near to it. -/
theorem within_iff_near (b : Binary) : s.within (Interval.ofBinary b) = true ↔ Near s.toRat b.mantissa b.exponent := by
  have hlow : ((Interval.ofBinary b).low : ℚ) / (Interval.ofBinary b).den =
      ((4 * b.mantissa - below b.mantissa b.exponent : Nat) : ℚ) * 2 ^ (b.exponent - 2) :=
    Interval.quarters b _
  have hhigh : ((Interval.ofBinary b).high : ℚ) / (Interval.ofBinary b).den =
      ((4 * b.mantissa + 2 : Nat) : ℚ) * 2 ^ (b.exponent - 2) :=
    Interval.quarters b _
  have hclosed : (Interval.ofBinary b).closed = decide (b.mantissa % 2 = 0) := rfl
  rw [Scaled.within_iff (Interval.den_pos b), hlow, hhigh, hclosed]
  rcases Nat.mod_two_eq_zero_or_one b.mantissa with heven | hodd
  · rw [if_pos (by simp [heven])]
    exact ⟨fun h => ⟨h.1, h.2, fun hodd => by omega⟩, fun h => ⟨h.low, h.high⟩⟩
  · rw [if_neg (by simp [hodd])]
    exact ⟨fun h => ⟨h.1.le, h.2.le, fun _ => h⟩, fun h => h.odd hodd⟩

end Intervals

/-! ## Grids -/

/-- The better neighbour is one that lies in the interval. -/
theorem within_of_nearestOf {i : Interval} {lower upper s : Scaled} (h : nearestOf i lower upper = some s) :
    s.within i = true := by
  unfold nearestOf at h
  split at h
  · rename_i hlower hupper
    obtain rfl := Option.some.inj h
    split_ifs
    · exact hlower
    · exact hupper
  · rename_i hlower _
    rwa [← Option.some.inj h]
  · rename_i _ hupper
    rwa [← Option.some.inj h]
  · cases h

theorem exists_nearestOf {i : Interval} {lower upper : Scaled} (h : lower.within i = true ∨ upper.within i = true) :
    ∃ s, nearestOf i lower upper = some s := by
  unfold nearestOf
  split
  · exact ⟨_, rfl⟩
  · exact ⟨_, rfl⟩
  · exact ⟨_, rfl⟩
  · rename_i hlower hupper
    rw [hlower, hupper] at h
    simp at h

/-- The neighbours of a value surround it. -/
theorem neighbours_bounds (i : Interval) (hden : 0 < i.den) (e : Int) :
    (neighbours i e).1.toRat ≤ i.value / i.den ∧ (i.value : ℚ) / i.den < (neighbours i e).2.toRat ∧
      (neighbours i e).2.toRat = (neighbours i e).1.toRat + 10 ^ e := by
  have hpos : (0 : ℚ) < 10 ^ e := by positivity
  obtain ⟨d, hd, hlow, hhigh⟩ : ∃ d : Nat, neighbours i e = (⟨d, e⟩, ⟨d + 1, e⟩) ∧
      (d : ℚ) ≤ i.value / i.den / 10 ^ e ∧ (i.value : ℚ) / i.den / 10 ^ e < d + 1 := by
    unfold neighbours
    by_cases he : 0 ≤ e
    · obtain ⟨k, rfl⟩ := Int.eq_ofNat_of_zero_le he
      have h := div_bounds i.value (Nat.mul_pos hden (Nat.pow_pos (n := k) (show 0 < 10 by decide)))
      push_cast at h
      rw [← div_div] at h
      exact ⟨_, by rw [if_pos he]; rfl, h⟩
    · obtain ⟨k, rfl⟩ := Int.exists_eq_neg_ofNat (show e ≤ 0 by omega)
      have h := div_bounds (i.value * 10 ^ k) hden
      push_cast at h
      rw [mul_div_right_comm] at h
      have hexp : (- -(k : Int)).toNat = k := by omega
      rw [zpow_neg, zpow_natCast, div_inv_eq_mul]
      exact ⟨_, by rw [if_neg he, hexp]; rfl, h⟩
  rw [le_div_iff₀ hpos] at hlow
  rw [div_lt_iff₀ hpos] at hhigh
  rw [hd]
  refine ⟨hlow, ?_, ?_⟩
  · rw [Scaled.toRat]
    push_cast
    exact hhigh
  · simp only [Scaled.toRat]
    push_cast
    ring

theorem firstHit_succ (i : Interval) (k : Int) (fuel : Nat) (n : Int) : firstHit i k (fuel + 1) n =
    (nearestOf i (neighbours i (k - n)).1 (neighbours i (k - n)).2).or (firstHit i k fuel (n + 1)) :=
  rfl

/-- A hit is a decimal in the interval. -/
theorem within_of_firstHit {i : Interval} {k : Int} {fuel : Nat} {n : Int} {s : Scaled}
    (h : firstHit i k fuel n = some s) : s.within i = true := by
  induction fuel generalizing n with
  | zero => cases h
  | succ fuel ih =>
    rw [firstHit_succ] at h
    rcases Option.or_eq_some_iff.1 h with h | ⟨-, h⟩
    · exact within_of_nearestOf h
    · exact ih h

/-- There is a hit if there is one on the finest grid. -/
theorem exists_firstHit {i : Interval} {k n : Int} {fuel : Nat}
    (h : ∃ s, nearestOf i (neighbours i (k - (n + fuel))).1 (neighbours i (k - (n + fuel))).2 = some s) :
    ∃ s, firstHit i k (fuel + 1) n = some s := by
  induction fuel generalizing n with
  | zero =>
    rw [Int.natCast_zero, Int.add_zero] at h
    obtain ⟨s, h⟩ := h
    exact ⟨s, by rw [firstHit_succ, h, Option.some_or]⟩
  | succ fuel ih =>
    rw [firstHit_succ]
    cases hfirst : nearestOf i (neighbours i (k - n)).1 (neighbours i (k - n)).2 with
    | some s => exact ⟨s, Option.some_or⟩
    | none =>
      rw [Option.none_or]
      refine ih ?_
      have hexp : k - (n + 1 + (fuel : Int)) = k - (n + ((fuel + 1 : Nat) : Int)) := by
        push_cast
        ring
      rwa [hexp]

/-! ## The number of digits -/

theorem below_iff {num den : Nat} (hden : 0 < den) (k : Int) :
    (if 0 ≤ k then num < den * tenTo k.toNat else num * tenTo (-k).toNat < den) ↔ (num : ℚ) / den < 10 ^ k := by
  have hden' : (0 : ℚ) < den := by exact_mod_cast hden
  split_ifs with hk
  · obtain ⟨j, rfl⟩ := Int.eq_ofNat_of_zero_le hk
    rw [div_lt_iff₀ hden', mul_comm, zpow_natCast]
    norm_cast
  · obtain ⟨j, rfl⟩ := Int.exists_eq_neg_ofNat (show k ≤ 0 by omega)
    have hexp : (- -(j : Int)).toNat = j := by omega
    rw [div_lt_iff₀ hden', zpow_neg, zpow_natCast, hexp, ← div_eq_inv_mul, lt_div_iff₀ (by positivity)]
    norm_cast

/-- The number of digits before the point is found in the range that is searched. -/
theorem magnitudeFrom_bounds {num den : Nat} (hden : 0 < den) {fuel : Nat} {k : Int}
    (hlow : (10 : ℚ) ^ (k - 1) ≤ num / den) (hhigh : (num : ℚ) / den < 10 ^ (k + fuel)) :
    (10 : ℚ) ^ (magnitudeFrom num den fuel k - 1) ≤ num / den ∧
      (num : ℚ) / den < 10 ^ magnitudeFrom num den fuel k := by
  induction fuel generalizing k with
  | zero =>
    rw [Int.natCast_zero, Int.add_zero] at hhigh
    exact ⟨hlow, hhigh⟩
  | succ fuel ih =>
    rw [magnitudeFrom]
    simp only [below_iff hden]
    split_ifs with hbelow
    · exact ⟨hlow, hbelow⟩
    · refine ih ?_ ?_
      · rw [Int.add_sub_cancel]
        exact not_lt.1 hbelow
      · have hexp : k + 1 + (fuel : Int) = k + ((fuel + 1 : Nat) : Int) := by
          push_cast
          ring
        rwa [hexp]

/-! ## Shortest decimals -/

theorem toRat_dropZero (s : Scaled) : s.dropZero.toRat = s.toRat := by
  unfold Scaled.dropZero
  split_ifs with h
  · have hdigits : (s.digits : ℚ) = (s.digits / 10 : Nat) * 10 := by
      exact_mod_cast (show s.digits = s.digits / 10 * 10 by omega)
    rw [Scaled.toRat, Scaled.toRat, hdigits, zpow_add_one₀ (by norm_num)]
    ring
  · rfl

section Doubles

variable {b : Binary}

/-- Doubles lie in the range that is searched for their number of digits. -/
theorem range_of_canonical (hc : Canonical b.mantissa b.exponent) :
    (10 : ℚ) ^ (-331 : Int) ≤ b.mantissa * 2 ^ b.exponent ∧ (b.mantissa : ℚ) * 2 ^ b.exponent < 10 ^ (310 : Int) := by
  have hmin := hc.le
  have hmax := hc.le_max
  have hpow : (2 : ℚ) ^ 1023 ≤ 10 ^ 308 := by
    calc (2 : ℚ) ^ 1023 = (2 ^ 93) ^ 11 := by rw [← pow_mul]
      _ ≤ (10 ^ 28) ^ 11 := pow_le_pow_left₀ (by norm_num) (by norm_num) 11
      _ = 10 ^ 308 := by rw [← pow_mul]
  constructor
  · calc (10 : ℚ) ^ (-331 : Int) ≤ 2 ^ (-1075 : Int) := by
          have hle : (2 : ℚ) ^ 1075 ≤ 10 ^ 331 := by
            calc (2 : ℚ) ^ 1075 = 2 ^ 1023 * 2 ^ 52 := by rw [← pow_add]
              _ ≤ 10 ^ 308 * 10 ^ 23 := mul_le_mul hpow (by norm_num) (by positivity) (by positivity)
              _ = 10 ^ 331 := by rw [← pow_add]
          rw [zpow_neg, zpow_neg]
          exact inv_anti₀ (by positivity) hle
      _ ≤ 2 ^ (b.exponent - 1) := zpow_le_zpow_right₀ one_le_two (by omega)
      _ ≤ b.mantissa * 2 ^ b.exponent := (near_self hc).least hc.pos
  · calc (b.mantissa : ℚ) * 2 ^ b.exponent < 2 ^ (53 + b.exponent) := (near_self hc).lt_zpow hc
      _ ≤ 2 ^ (1024 : Int) := zpow_le_zpow_right₀ one_le_two (by omega)
      _ = 2 ^ 1023 * 2 := by rw [← pow_succ]; rfl
      _ ≤ 10 ^ 308 * 10 ^ 2 := mul_le_mul hpow (by norm_num) (by positivity) (by positivity)
      _ = 10 ^ (310 : Int) := by rw [← pow_add]; rfl

/-- With seventeen digits one of the neighbours of a double lies in its interval. -/
theorem exists_nearestOf_seventeen (hc : Canonical b.mantissa b.exponent) {k : Int}
    (hk : (10 : ℚ) ^ (k - 1) ≤ b.mantissa * 2 ^ b.exponent) :
    ∃ s, nearestOf (.ofBinary b) (neighbours (.ofBinary b) (k - 17)).1 (neighbours (.ofBinary b) (k - 17)).2 =
      some s := by
  obtain ⟨hlower, hupper, hgrid⟩ := neighbours_bounds (.ofBinary b) (Interval.den_pos b) (k - 17)
  rw [Interval.value_eq] at hlower hupper
  refine exists_nearestOf ?_
  rw [within_iff_near, within_iff_near]
  generalize (neighbours (.ofBinary b) (k - 17)).1.toRat = l at *
  generalize (neighbours (.ofBinary b) (k - 17)).2.toRat = u at *
  by_contra hneither
  obtain ⟨hl, hu⟩ := not_or.1 hneither
  obtain ⟨hlow, hhigh⟩ := hc.between
  -- both neighbours would lie outside, so that the grid is as coarse as the interval is wide
  have hl' : l ≤ ((4 * b.mantissa - below b.mantissa b.exponent : Nat) : ℚ) * 2 ^ (b.exponent - 2) :=
    not_lt.1 fun h => hl (near_of_lt h (hlower.trans_lt hhigh))
  have hu' : ((4 * b.mantissa + 2 : Nat) : ℚ) * 2 ^ (b.exponent - 2) ≤ u :=
    not_lt.1 fun h => hu (near_of_lt (hlow.trans hupper) h)
  have hwide : ((4 * b.mantissa + 2 : Nat) : ℚ) * 2 ^ (b.exponent - 2) ≤
      ((4 * b.mantissa - below b.mantissa b.exponent : Nat) : ℚ) * 2 ^ (b.exponent - 2) + 10 ^ (k - 17) := by
    linarith
  have hdigits : (10 : ℚ) ^ (k - 1) = 10 ^ 16 * 10 ^ (k - 17) := by
    rw [← zpow_natCast, ← zpow_add₀ (by norm_num)]
    congr 1
    push_cast
    ring
  rw [hdigits, value_quarters b.mantissa] at hk
  have hpos := zpow_pos_two (b.exponent - 2)
  have hcoarse : ((10 ^ 16 * (4 * b.mantissa + 2) : Nat) : ℚ) ≤
      (10 ^ 16 * (4 * b.mantissa - below b.mantissa b.exponent) + 4 * b.mantissa : Nat) := by
    refine le_of_mul_le_mul_right ?_ hpos
    push_cast [-Nat.cast_sub] at hk hwide ⊢
    linarith
  have hcoarse' := Nat.cast_le.1 hcoarse
  have hlt := hc.lt
  have hm := hc.pos
  unfold below at hcoarse'
  split_ifs at hcoarse' with hborder
  · omega
  · omega

/-- The shortest decimal of a double lies in its interval. -/
theorem near_shortest (hc : Canonical b.mantissa b.exponent) :
    Near (shortest b).toRat b.mantissa b.exponent := by
  obtain ⟨hlow, hhigh⟩ := range_of_canonical hc
  rw [← Interval.value_eq] at hlow hhigh
  obtain ⟨hk, -⟩ := magnitudeFrom_bounds (k := -330) (Interval.den_pos b) hlow
    (show _ < (10 : ℚ) ^ (-330 + ((640 : Nat) : Int)) from hhigh)
  rw [Interval.value_eq] at hk
  obtain ⟨s, hs⟩ : ∃ s, firstHit (.ofBinary b) _ 17 1 = some s := exists_firstHit (exists_nearestOf_seventeen hc hk)
  have hwithin := (within_iff_near b).1 (within_of_firstHit hs)
  rw [shortest, if_neg hc.pos.ne']
  simp only [hs, Option.getD_some, toRat_dropZero]
  exact hwithin

end Doubles

end HintQuality.Decimal
