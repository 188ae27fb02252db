import HintQuality.Proofs.DecimalDoubles
import HintQuality.Proofs.NumberText
import HintQuality.Proofs.ShortestDecimals
import Mathlib
/-!
# Reading printed doubles

A printed double is read back (`value_floatChars`). A finite one is printed as the shortest decimal in its interval, and
every decimal there is read as the double (`exists_reads_shortestChars`). What is no number has one form only, since
doubles are kept in canonical form.
-/

namespace HintQuality.Json

open Text Float.Model Float.Model.UnpackedFloat

/-! ## Parts of a double -/

/-- Doubles with the same parts are the same. -/
theorem float_eq {x y : Float} (h : x.toModel.unpack = y.toModel.unpack) : x = y := by
  have hmodel : x.toModel = y.toModel := by
    rw [← Decimal.pack_unpack x.toModel, h, Decimal.pack_unpack]
  cases x
  cases y
  exact congrArg Float.ofModel hmodel

/-- Changing the sign of a double changes the sign of its parts. -/
theorem unpack_neg {x : Float} {u : UnpackedFloat} (h : x.toModel.unpack = u)
    (hpack : (Float.Model.pack u.neg).unpack = u.neg) : (-x).toModel.unpack = u.neg := by
  show (Float.Model.pack x.toModel.unpack.neg).unpack = _
  rw [h, hpack]

theorem unpack_zero : (0.0 : Float).toModel.unpack = .zero .positive := by
  rfl

theorem unpack_nan : (0.0 / 0.0 : Float).toModel.unpack = .notANumber := by
  rfl

theorem unpack_infinity : (1.0 / 0.0 : Float).toModel.unpack = .infinity .positive := by
  rfl

theorem unpack_neg_infinity : (-(1.0 / 0.0) : Float).toModel.unpack = .infinity .negative := by
  rfl

theorem unpack_neg_zero : (-0.0 : Float).toModel.unpack = .zero .negative := by
  rfl

theorem lt_zero_iff {x : Float} {s : Sign} (h : x.toModel.unpack = .infinity s) : x < 0 ↔ s = .negative := by
  have hzero : (0 : Float).toModel.unpack = .zero .positive := rfl
  have hlt : x < 0 ↔ x.toModel.unpack.lt (0 : Float).toModel.unpack = true := by
    show decide (x.toModel.unpack.lt (0 : Float).toModel.unpack = true) = true ↔ _
    rw [decide_eq_true_iff]
  rw [hlt, h, hzero]
  cases s
  · exact ⟨fun _ => rfl, fun _ => rfl⟩
  · exact ⟨fun h => absurd h (by decide), fun h => by cases h⟩

/-! ## Reading -/

variable {m : Nat} {e : Int}

/-- The shortest decimal of a double is read as the double. -/
theorem exists_reads_shortestChars (negative : Bool) (hc : Decimal.Canonical m e) :
    ∃ y, Reads (Decimal.shortestChars ⟨negative, m, e⟩) (.float y) ∧
      y.toModel = Float.Model.pack (.finite .positive m e hc.pos) := by
  have hnear := Decimal.near_shortest (b := ⟨negative, m, e⟩) hc
  generalize hs : Decimal.shortest ⟨negative, m, e⟩ = s at hnear
  have hpos : 0 < s.digits := by
    by_contra hzero
    have hleast := hnear.least hc.pos
    rw [Decimal.Scaled.toRat, Nat.eq_zero_of_not_pos hzero, Nat.cast_zero, zero_mul] at hleast
    exact absurd (Decimal.zpow_pos_two _) (not_lt_of_ge hleast)
  have hread := Decimal.toFloat_of_near hc hpos hnear
  simp only [Decimal.shortestChars, hs]
  split_ifs with hlead
  · refine ⟨_, reads_positional (fun hzero => absurd hzero hpos.ne'), ?_⟩
    split_ifs with hexponent
    · refine Decimal.toFloat_of_near hc (Nat.mul_pos hpos (Nat.pow_pos (by decide))) ?_
      obtain ⟨k, hk⟩ := Int.eq_ofNat_of_zero_le hexponent
      have hvalue : ((s.digits * 10 ^ (k + 1) : Nat) : ℚ) * 10 ^ (-1 : Int) = s.toRat := by
        rw [Decimal.Scaled.toRat, hk, zpow_natCast, zpow_neg_one]
        push_cast
        field_simp
        ring
      rwa [hk, Int.toNat_natCast, hvalue]
    · exact hread
  · exact ⟨_, reads_scientific s, hread⟩

/-- A finite double is printed with its sign. -/
theorem floatChars_of_finite {x : Float} {b : Decimal.Binary} (hnan : x.isNaN = false) (hinf : x.isInf = false)
    (hb : Decimal.Binary.ofBits x.toModel.toBits.toBitVec.toNat = b) :
    floatChars x = (if b.negative then ['-'] else []) ++ Decimal.shortestChars b := by
  have hx : Decimal.Binary.ofFloat x = b := hb
  rw [floatChars, if_neg (Bool.eq_false_iff.1 hnan), if_neg (Bool.eq_false_iff.1 hinf), Decimal.floatText,
    if_neg (Bool.eq_false_iff.1 hnan), if_neg (Bool.eq_false_iff.1 hinf), hx, String.toList_ofList]

/-- A zero is printed with one place. -/
theorem reads_zero (negative : Bool) (e : Int) : Reads (Decimal.shortestChars ⟨negative, 0, e⟩) (.float 0.0) := by
  have hshortest : Decimal.shortest ⟨negative, 0, e⟩ = ⟨0, 0⟩ := rfl
  have hlead : -4 ≤ (0 : Int) + ((digits 0).length - 1 : Nat) ∧ (0 : Int) + ((digits 0).length - 1 : Nat) < 16 := by
    rw [digits_of_lt (by decide)]
    decide
  simp only [Decimal.shortestChars, hshortest]
  rw [if_pos (by simpa using hlead)]
  exact reads_positional (s := ⟨0, 0⟩) fun _ => rfl

/-- A double is printed as one of the names, or as a number with its sign. -/
theorem floatChars_cases (x : Float) :
    (floatChars x = ['N', 'a', 'N'] ∧ x = 0.0 / 0.0) ∨
    (floatChars x = "Infinity".toList ∧ x = 1.0 / 0.0) ∨
    (floatChars x = '-' :: "Infinity".toList ∧ x = -(1.0 / 0.0)) ∨
    ∃ (negative : Bool) (cs : List Char) (y : Float), floatChars x = (if negative then ['-'] else []) ++ cs ∧
      Reads cs (.float y) ∧ x = if negative then -y else y := by
  cases hu : x.toModel.unpack with
  | notANumber =>
    have hnan : x.isNaN = true := congrArg UnpackedFloat.isNaN hu
    exact .inl ⟨by rw [floatChars, if_pos hnan], float_eq (hu.trans unpack_nan.symm)⟩
  | infinity s =>
    have hnan : x.isNaN = false := congrArg UnpackedFloat.isNaN hu
    have hinf : x.isInf = true := congrArg UnpackedFloat.isInf hu
    rw [floatChars, if_neg (Bool.eq_false_iff.1 hnan), if_pos hinf]
    cases s with
    | negative =>
      rw [if_pos ((lt_zero_iff hu).2 rfl)]
      exact .inr (.inr (.inl ⟨rfl, float_eq (hu.trans unpack_neg_infinity.symm)⟩))
    | positive =>
      rw [if_neg (fun hlt => by cases (lt_zero_iff hu).1 hlt)]
      exact .inr (.inl ⟨rfl, float_eq (hu.trans unpack_infinity.symm)⟩)
  | zero s =>
    have hnan : x.isNaN = false := congrArg UnpackedFloat.isNaN hu
    have hinf : x.isInf = false := congrArg UnpackedFloat.isInf hu
    refine .inr (.inr (.inr ⟨_, _, 0.0, floatChars_of_finite hnan hinf (Decimal.ofBits_of_zero hu),
      reads_zero _ _, float_eq ?_⟩))
    rw [hu]
    cases s with
    | negative => exact unpack_neg_zero.symm
    | positive => exact unpack_zero.symm
  | finite s m e hm =>
    have hnan : x.isNaN = false := congrArg UnpackedFloat.isNaN hu
    have hinf : x.isInf = false := congrArg UnpackedFloat.isInf hu
    have hc := Decimal.canonical_of_unpack hu
    obtain ⟨y, hreads, hy⟩ := exists_reads_shortestChars (decide (s.toBitVec = 1#1)) hc
    refine .inr (.inr (.inr ⟨_, _, y, floatChars_of_finite hnan hinf (Decimal.ofBits_of_finite hu), hreads,
      float_eq ?_⟩))
    have hpositive : y.toModel.unpack = .finite .positive m e hm := by
      rw [hy, hc.unpack_pack]
    rw [hu]
    cases s with
    | negative => exact (unpack_neg hpositive (hc.unpack_pack .negative)).symm
    | positive => exact hpositive.symm

/-- **A printed double is read back.** -/
theorem value_floatChars (fuel : Nat) (x : Float) {rest : List Char} (h : Ends rest) :
    value (fuel + 1) (floatChars x ++ rest) = .ok (.float x, rest) := by
  obtain ⟨hx, heq⟩ | ⟨hx, heq⟩ | ⟨hx, heq⟩ | ⟨negative, cs, y, hx, hreads, heq⟩ := floatChars_cases x
  · rw [hx, heq]
    rfl
  · rw [hx, heq]
    rfl
  · rw [hx, heq]
    rfl
  · rw [hx, hreads.value_eq negative fuel h, heq]
    cases negative <;> rfl

/-- A printed double starts with a minus, a digit or the letter of a name. -/
theorem exists_floatChars_eq (x : Float) : ∃ c cs, floatChars x = c :: cs ∧
    (c = '-' ∨ c.isDigit = true ∨ c = 'N' ∨ c = 'I') := by
  obtain ⟨hx, -⟩ | ⟨hx, -⟩ | ⟨hx, -⟩ | ⟨negative, cs, y, hx, hreads, -⟩ := floatChars_cases x
  · exact ⟨'N', _, hx, by simp⟩
  · exact ⟨'I', _, hx, by simp⟩
  · exact ⟨'-', _, hx, .inl rfl⟩
  · obtain ⟨c, hhead, hc⟩ := hreads.head
    cases negative with
    | true => exact ⟨'-', _, hx, .inl rfl⟩
    | false =>
      rw [(List.cons_head?_tail hhead).symm] at hx
      exact ⟨c, _, hx, .inr (.inl hc)⟩

end HintQuality.Json
