import HintQuality.Proofs.Rounding
import Mathlib
/-!
# Doubles and their parts

A double is packed from its parts without loss and is taken apart into them again, also if it has less than 53 bits
(`Canonical.unpack_pack`, `pack_unpack`); a number with 53 bits whose exponent is out of range is packed as infinity
(`Normal.unpack_pack_of_le`). The two ways of taking it apart agree (`ofBits_of_finite`, `ofBits_of_zero`).
-/

namespace HintQuality.Decimal

open Float.Model Float.Model.UnpackedFloat

/-! ## Packing -/

theorem unpack_packedInfinity (s : Sign) : unpack Format.binary64 (packedInfinity Format.binary64 s) = .infinity s := by
  cases s <;> rfl

/-- The sign, the 53 bits and the exponent of a rounded number. -/
structure Normal (s : Sign) (q : Nat) (e : Int) (u : UnpackedFloat) : Prop where
  lower : 2 ^ 52 ≤ q
  upper : q < 2 ^ 53
  eq : ∃ h, u = .finite s q e h

theorem Normal.neg {s : Sign} {q : Nat} {e : Int} {u : UnpackedFloat} (hu : Normal s q e u) :
    Normal (-s) q e u.neg := by
  obtain ⟨hq, hq', h, rfl⟩ := hu
  exact ⟨hq, hq', h, rfl⟩

/-- A number with 53 bits whose exponent is too great is packed as infinity. -/
theorem Normal.unpack_pack_of_le {s : Sign} {q : Nat} {e : Int} {u : UnpackedFloat} (hu : Normal s q e u)
    (he : 972 ≤ e) : (Float.Model.pack u).unpack = .infinity s := by
  obtain ⟨-, -, h, rfl⟩ := hu
  have hbias : 2 ^ 11 ≤ (e + 1023 + 52).toNat + 1 := by omega
  have hpack : UnpackedFloat.pack Format.binary64 (.finite s q e h) = packedInfinity Format.binary64 s := by
    rw [UnpackedFloat.pack]
    exact if_pos hbias
  show unpack Format.binary64 (UnpackedFloat.pack Format.binary64 (.finite s q e h)) = _
  rw [hpack, unpack_packedInfinity]

/-- A number with 53 bits and an exponent in range is packed with that exponent. -/
theorem Normal.pack_eq {s : Sign} {q b : Nat} {e : Int} {u : UnpackedFloat} (hu : Normal s q e u)
    (hb : e + 1075 = b) (he : e ≤ 971) : UnpackedFloat.pack Format.binary64 u =
      packComponents Format.binary64 s (BitVec.ofNat 11 b) (BitVec.ofNat 52 q) := by
  obtain ⟨hq, hq', h, rfl⟩ := hu
  have hlog : q.log2 = 52 := (Nat.log2_eq_iff (by omega)).2 ⟨hq, hq'⟩
  have hbias : ¬2 ^ 11 ≤ b + 1 := by omega
  have hexponent : (e + (Format.binary64.exponentBias : Int) + ((52 : Nat) : Int)).toNat = b := by
    show (e + 1023 + 52).toNat = b
    omega
  rw [UnpackedFloat.pack]
  simp only [hexponent, hlog]
  rw [if_neg hbias]
  rfl

/-- The mantissa of 53 bits has one bit more than is stored. -/
theorem toNat_one_append (v : BitVec 52) : (1#1 ++ v).toNat = v.toNat + 2 ^ 52 := by
  rw [BitVec.toNat_append, ← Nat.shiftLeft_add_eq_or_of_lt v.isLt, Nat.add_comm]
  rfl

/-- A number with 53 bits and an exponent in range is packed without loss. -/
theorem Normal.unpack_pack {s : Sign} {q : Nat} {e : Int} {u : UnpackedFloat} (hu : Normal s q e u) (he : -1074 ≤ e)
    (he' : e ≤ 971) : (Float.Model.pack u).unpack = u := by
  obtain ⟨b, hb⟩ : ∃ b : Nat, e + 1075 = b := ⟨(e + 1075).toNat, by omega⟩
  have hpack := hu.pack_eq hb he'
  obtain ⟨hq, hq', h, rfl⟩ := hu
  have hexponent : (BitVec.ofNat 11 b).toNat = b := by
    rw [BitVec.toNat_ofNat, Nat.mod_eq_of_lt (by omega)]
  have hmantissa : (1#1 ++ BitVec.ofNat 52 q).toNat = q := by
    rw [toNat_one_append, BitVec.toNat_ofNat]
    omega
  have hnotAll : BitVec.ofNat 11 b ≠ -1#11 := by
    intro hall
    have := congrArg BitVec.toNat hall
    rw [hexponent] at this
    have : (-1#11).toNat = 2047 := by decide
    omega
  have hnotZero : BitVec.ofNat 11 b ≠ 0#11 := by
    intro hzero
    have := congrArg BitVec.toNat hzero
    rw [hexponent] at this
    simp at this
    omega
  show UnpackedFloat.unpack Format.binary64 (UnpackedFloat.pack Format.binary64 (.finite s q e h)) = _
  rw [hpack, UnpackedFloat.unpack]
  simp only [unpackExponent_packComponents, unpackMantissa_packComponents, unpackSign_packComponents,
    Sign.ofBitVec_toBitVec]
  rw [if_neg hnotAll, if_neg hnotZero]
  simp only [hmantissa, hexponent]
  congr 1
  show (b : Int) - (1023 + 52) = e
  omega

/-! ## Fields of a double -/

section Fields

variable {b : BitVec 64}

theorem toNat_unpackMantissa (b : BitVec 64) : (@unpackMantissa Format.binary64 b).toNat = b.toNat % 2 ^ 52 := by
  rw [unpackMantissa_def]
  simp

theorem toNat_unpackExponent (b : BitVec 64) :
    (@unpackExponent Format.binary64 b).toNat = b.toNat / 2 ^ 52 % 2 ^ 11 := by
  rw [unpackExponent_def]
  simp [Nat.shiftRight_eq_div_pow]

/-- The sign is the uppermost bit. -/
theorem unpackSign_eq_one_iff (b : BitVec 64) : @unpackSign Format.binary64 b = 1#1 ↔ 2 ^ 63 ≤ b.toNat := by
  have hlt : b.toNat < 2 ^ 64 := b.isLt
  have hbit : (@unpackSign Format.binary64 b).toNat = b.toNat / 2 ^ 63 := by
    have hmod : b.toNat / 2 ^ 63 % 2 = b.toNat / 2 ^ 63 := by omega
    rw [unpackSign_def]
    simpa [Nat.shiftRight_eq_div_pow] using hmod
  rw [← BitVec.toNat_inj, hbit, BitVec.toNat_ofNat]
  omega

/-- The bits of a double are taken apart in two ways alike. -/
theorem ofBits_eq (b : BitVec 64) : Binary.ofBits b.toNat =
    { negative := decide (@unpackSign Format.binary64 b = 1#1)
      mantissa :=
        if (@unpackExponent Format.binary64 b).toNat = 0 then (@unpackMantissa Format.binary64 b).toNat
        else (@unpackMantissa Format.binary64 b).toNat + 2 ^ 52
      exponent :=
        if (@unpackExponent Format.binary64 b).toNat = 0 then -1074
        else ((@unpackExponent Format.binary64 b).toNat : Int) - 1075 } := by
  rw [toNat_unpackMantissa, toNat_unpackExponent, decide_eq_decide.2 (unpackSign_eq_one_iff b)]
  rfl

/-- The fields of a finite double are its sign, mantissa and exponent. -/
theorem ofBits_of_finite {s : Sign} {m : Nat} {e : Int} {h : 0 < m}
    (hu : UnpackedFloat.unpack Format.binary64 b = .finite s m e h) :
    Binary.ofBits b.toNat = ⟨decide (s.toBitVec = 1#1), m, e⟩ := by
  have hbias : ((Format.binary64.exponentBias : Nat) : Int) + ((52 : Nat) : Int) = 1075 := rfl
  rw [UnpackedFloat.unpack] at hu
  split_ifs at hu with hinf hnan hzero hm
  · obtain ⟨rfl, rfl, rfl⟩ := UnpackedFloat.finite.inj hu
    rw [ofBits_eq, hzero, Sign.toBitVec_ofBitVec]
    rfl
  · obtain ⟨rfl, rfl, rfl⟩ := UnpackedFloat.finite.inj hu
    have hne : (@unpackExponent Format.binary64 b).toNat ≠ 0 := fun h => hzero (BitVec.eq_of_toNat_eq h)
    rw [ofBits_eq, if_neg hne, if_neg hne, Sign.toBitVec_ofBitVec, toNat_one_append, hbias]

/-- The fields of a zero are its sign and no mantissa. -/
theorem ofBits_of_zero {s : Sign} (hu : UnpackedFloat.unpack Format.binary64 b = .zero s) :
    Binary.ofBits b.toNat = ⟨decide (s.toBitVec = 1#1), 0, -1074⟩ := by
  rw [UnpackedFloat.unpack] at hu
  split_ifs at hu with hinf hnan hzero hm
  obtain rfl := UnpackedFloat.zero.inj hu
  rw [ofBits_eq, hzero, hm, Sign.toBitVec_ofBitVec]
  rfl

end Fields

/-! ## Parts -/

/-- The parts of a finite double that its bits spell are in range. -/
theorem canonical_of_unpack {b : BitVec 64} {s : Sign} {m : Nat} {e : Int} {h : 0 < m}
    (hu : UnpackedFloat.unpack Format.binary64 b = .finite s m e h) : Canonical m e := by
  have hfraction : (@unpackMantissa Format.binary64 b).toNat < 2 ^ 52 := BitVec.isLt _
  have hfield : (@unpackExponent Format.binary64 b).toNat < 2 ^ 11 := BitVec.isLt _
  have hbias : ((Format.binary64.exponentBias : Nat) : Int) + ((52 : Nat) : Int) = 1075 := rfl
  rw [UnpackedFloat.unpack] at hu
  split_ifs at hu with hinf hnan hzero hm
  · obtain ⟨rfl, rfl, rfl⟩ := UnpackedFloat.finite.inj hu
    rw [hzero, hbias]
    exact ⟨h, by omega, by simp, by simp, by simp⟩
  · obtain ⟨rfl, rfl, rfl⟩ := UnpackedFloat.finite.inj hu
    have hne : (@unpackExponent Format.binary64 b).toNat ≠ 0 := fun h => hzero (BitVec.eq_of_toNat_eq h)
    have hall : (@unpackExponent Format.binary64 b).toNat ≠ 2047 := fun h => hinf (BitVec.eq_of_toNat_eq h)
    have hmantissa := toNat_one_append (@unpackMantissa Format.binary64 b)
    rw [hmantissa, hbias]
    exact ⟨by omega, by omega, by omega, by omega, fun _ => by omega⟩

/-- A number with fewer bits is packed without an exponent. -/
theorem pack_of_lt {s : Sign} {m : Nat} (hm : m < 2 ^ 52) (hpos : 0 < m) :
    UnpackedFloat.pack Format.binary64 (.finite s m (-1074) hpos) =
      packComponents Format.binary64 s 0#11 (BitVec.ofNat 52 m) := by
  have hlog : m.log2 < 52 := (Nat.log2_lt hpos.ne').2 hm
  have hbits : ¬m.log2 + 1 = Format.binary64.mantissaBits := by
    show ¬m.log2 + 1 = 53
    omega
  rw [UnpackedFloat.pack]
  rw [if_neg (by decide), if_neg hbits]

/-- The parts of a finite double are packed without loss. -/
theorem Canonical.unpack_pack {m : Nat} {e : Int} (hc : Canonical m e) (s : Sign) :
    (Float.Model.pack (.finite s m e hc.pos)).unpack = .finite s m e hc.pos := by
  obtain ⟨hpos, hlt, hle, hmax, hnormal⟩ := hc
  rcases Nat.lt_or_ge m (2 ^ 52) with hsub | hfull
  · obtain rfl : e = -1074 := by
      by_contra hne
      have := hnormal (by omega)
      omega
    have hmantissa : (BitVec.ofNat 52 m).toNat = m := by
      rw [BitVec.toNat_ofNat, Nat.mod_eq_of_lt hsub]
    have hnotZero : BitVec.ofNat 52 m ≠ 0#52 := by
      intro hzero
      rw [hzero] at hmantissa
      exact hpos.ne hmantissa
    show UnpackedFloat.unpack Format.binary64 (UnpackedFloat.pack Format.binary64 (.finite s m (-1074) hpos)) = _
    rw [pack_of_lt hsub, UnpackedFloat.unpack]
    simp only [unpackExponent_packComponents, unpackMantissa_packComponents, unpackSign_packComponents,
      Sign.ofBitVec_toBitVec]
    rw [if_neg (by decide), dif_neg hnotZero]
    simp only [hmantissa]
    rfl
  · exact Normal.unpack_pack ⟨hfull, hlt, hpos, rfl⟩ hle hmax

/-- A double consists of its parts. -/
theorem packComponents_unpack (b : BitVec 64) : packComponents Format.binary64
    (.ofBitVec (@unpackSign Format.binary64 b)) (@unpackExponent Format.binary64 b)
    (@unpackMantissa Format.binary64 b) = b := by
  rw [packComponents, Sign.toBitVec_ofBitVec]
  apply BitVec.eq_of_getLsbD_eq
  intro i (hi : i < 64)
  simp only [unpackSign, unpackExponent, unpackMantissa, BitVec.getLsbD_append, BitVec.getLsbD_cast,
    BitVec.getLsbD_extractLsb]
  split_ifs with hmantissa hexponent
  · rw [decide_eq_true (by omega), Bool.true_and, Nat.zero_add]
  · rw [decide_eq_true (by omega), Bool.true_and, show 52 + (i - 52) = i by omega]
  · rw [decide_eq_true (by omega), Bool.true_and, show 52 + 11 + (i - 52 - 11) = i by omega]

/-- A double is packed from its parts again. -/
theorem pack_unpack (x : Float.Model) : Float.Model.pack x.unpack = x := by
  obtain ⟨⟨b⟩, hvalid⟩ := x
  show Float.Model.pack (UnpackedFloat.unpack Format.binary64 b) = _
  unfold Float.Model.pack
  congr 2
  have hparts := packComponents_unpack b
  have hfraction : (@unpackMantissa Format.binary64 b).toNat < 2 ^ 52 := BitVec.isLt _
  have hfield : (@unpackExponent Format.binary64 b).toNat < 2 ^ 11 := BitVec.isLt _
  rw [UnpackedFloat.unpack]
  split_ifs with hinf hnan hzero hm
  · rw [hinf, hnan] at hparts
    exact hparts
  · exact (hvalid.eq_packedNaN hinf hnan).symm
  · rw [hzero, hm] at hparts
    exact hparts
  · rw [hzero] at hparts ⊢
    have hpack := pack_of_lt (s := .ofBitVec (@unpackSign Format.binary64 b)) hfraction
      (Nat.pos_of_ne_zero fun h => hm (BitVec.eq_of_toNat_eq h))
    rw [BitVec.ofNat_toNat, BitVec.setWidth_eq, hparts] at hpack
    exact hpack
  · have hne : (@unpackExponent Format.binary64 b).toNat ≠ 0 := fun h => hzero (BitVec.eq_of_toNat_eq h)
    have hall : (@unpackExponent Format.binary64 b).toNat ≠ 2047 := fun h => hinf (BitVec.eq_of_toNat_eq h)
    have hbias : ((Format.binary64.exponentBias : Nat) : Int) + ((52 : Nat) : Int) = 1075 := rfl
    have hlow : BitVec.ofNat 52 (1#1 ++ @unpackMantissa Format.binary64 b).toNat =
        @unpackMantissa Format.binary64 b := by
      apply BitVec.eq_of_toNat_eq
      rw [BitVec.toNat_ofNat, toNat_one_append]
      omega
    have hmantissa := toNat_one_append (@unpackMantissa Format.binary64 b)
    refine (Normal.pack_eq (b := (@unpackExponent Format.binary64 b).toNat) ⟨?_, ?_, _, rfl⟩ ?_ ?_).trans ?_
    · omega
    · omega
    · rw [hbias]
      omega
    · rw [hbias]
      omega
    · rw [BitVec.ofNat_toNat, BitVec.setWidth_eq, hlow]
      exact hparts

end HintQuality.Decimal
