import Treewalk.Number

set_option autoImplicit false
set_option relaxedAutoImplicit false

/-!
Doubles and their bits.

A double is made from its bits by taking them apart into sign, exponent and mantissa and putting these
together again. Nothing is lost on the way, so a double that is not negative is the one with its own
magnitude.
-/

namespace Treewalk.Binary64

open Float.Model (Format UnpackedFloat)
open Float.Model.UnpackedFloat

theorem sign_toBitVec_ofBitVec (v : BitVec 1) : (Sign.ofBitVec v).toBitVec = v := by
  rcases BitVec.eq_zero_or_eq_one v with rfl | rfl
  · rfl
  · rfl

section Parts

variable {spec : Format} (b : BitVec spec.numBits) (i : Nat)

theorem getLsbD_unpackMantissa (h : i < spec.mantissaBitsWithoutImplicit) :
    (unpackMantissa b).getLsbD i = b.getLsbD i := by
  show (BitVec.cast _ (b.extractLsb _ 0)).getLsbD i = _
  have hlast : i < spec.mantissaBitsWithoutImplicit - 1 - 0 + 1 := by omega
  rw [BitVec.getLsbD_cast, BitVec.getLsbD_extractLsb, decide_eq_true hlast, Bool.true_and,
    Nat.zero_add]

theorem getLsbD_unpackExponent (h : i < spec.exponentBits) :
    (unpackExponent b).getLsbD i = b.getLsbD (spec.mantissaBitsWithoutImplicit + i) := by
  show (BitVec.cast _ (b.extractLsb _ _)).getLsbD i = _
  have hlast : i < spec.mantissaBitsWithoutImplicit + spec.exponentBits - 1 -
      spec.mantissaBitsWithoutImplicit + 1 := by omega
  rw [BitVec.getLsbD_cast, BitVec.getLsbD_extractLsb, decide_eq_true hlast, Bool.true_and]

theorem getLsbD_unpackSign (h : i < 1) :
    (unpackSign b).getLsbD i =
      b.getLsbD (spec.mantissaBitsWithoutImplicit + spec.exponentBits + i) := by
  show (BitVec.cast _ (b.extractLsb _ _)).getLsbD i = _
  have hlast : i < spec.mantissaBitsWithoutImplicit + spec.exponentBits -
      (spec.mantissaBitsWithoutImplicit + spec.exponentBits) + 1 := by omega
  rw [BitVec.getLsbD_cast, BitVec.getLsbD_extractLsb, decide_eq_true hlast, Bool.true_and]

end Parts

/-- The parts of a bit pattern, put together again. -/
theorem packComponents_unpack {spec : Format} (b : BitVec spec.numBits) :
    packComponents spec (Sign.ofBitVec (unpackSign b)) (unpackExponent b) (unpackMantissa b) = b := by
  rw [packComponents, sign_toBitVec_ofBitVec]
  apply BitVec.eq_of_getLsbD_eq
  intro i hi
  rw [BitVec.getLsbD_append]
  by_cases hmantissa : i < spec.mantissaBitsWithoutImplicit
  · rw [if_pos hmantissa, getLsbD_unpackMantissa b i hmantissa]
  · rw [if_neg hmantissa, BitVec.getLsbD_append]
    by_cases hexponent : i - spec.mantissaBitsWithoutImplicit < spec.exponentBits
    · have hindex : spec.mantissaBitsWithoutImplicit + (i - spec.mantissaBitsWithoutImplicit) = i := by
        omega
      rw [if_pos hexponent, getLsbD_unpackExponent b _ hexponent, hindex]
    · have hindex : spec.mantissaBitsWithoutImplicit + spec.exponentBits +
          (i - spec.mantissaBitsWithoutImplicit - spec.exponentBits) = i := by omega
      rw [if_neg hexponent, getLsbD_unpackSign b _ (by omega), hindex]

theorem toNat_implicit_append {n : Nat} (m : BitVec n) : (1#1 ++ m).toNat = Nat.pow 2 n + m.toNat := by
  have hone : (1#1).toNat <<< n = Nat.pow 2 n := by simp [Nat.shiftLeft_eq]
  rw [BitVec.toNat_append, ← Nat.shiftLeft_add_eq_or_of_lt m.isLt, hone]

theorem pack_finite (s : Sign) (m : Nat) (e : Int) (h : 0 < m) :
    pack .binary64 (.finite s m e h) =
      if 2048 ≤ (e + 1023 + 52).toNat + 1 then packedInfinity .binary64 s
      else if m.log2 + 1 = 53 then
        packComponents .binary64 s (BitVec.ofNat 11 (e + 1023 + 52).toNat) (BitVec.ofNat 52 m)
      else packComponents .binary64 s 0#11 (BitVec.ofNat 52 m) := rfl

/-- A mantissa without the implicit bit belongs to the exponent zero. -/
theorem pack_subnormal (s : Sign) {e : BitVec 11} (m : BitVec 52) (he : e = 0#11)
    (h : 0 < m.toNat) :
    pack .binary64 (.finite s m.toNat (e.toNat - (1023 + 52) + 1) h) =
      packComponents .binary64 s e m := by
  subst he
  have hlog : m.toNat.log2 < 52 := (Nat.log2_lt (Nat.ne_of_gt h)).mpr m.isLt
  have hbits : BitVec.ofNat 52 m.toNat = m := BitVec.ofNat_toNat ..
  rw [pack_finite, if_neg (by decide), if_neg (by omega), hbits]

/-- A mantissa with the implicit bit loses it again. -/
theorem pack_normal (s : Sign) (e : BitVec 11) (m : BitVec 52) (he : e ≠ -1#11)
    (h : 0 < (1#1 ++ m).toNat) :
    pack .binary64 (.finite s (1#1 ++ m).toNat (e.toNat - (1023 + 52)) h) =
      packComponents .binary64 s e m := by
  have hlog : (1#1 ++ m).toNat.log2 = 52 := by
    have hvalue : (1#1 ++ m).toNat = 2 ^ 52 + m.toNat := toNat_implicit_append m
    have hm : m.toNat < 2 ^ 52 := m.isLt
    rw [hvalue, Nat.log2_eq_iff (by omega)]
    omega
  have hexponent : ((e.toNat : Int) - (1023 + 52) + 1023 + 52).toNat = e.toNat := by omega
  have hlow : ¬ 2048 ≤ e.toNat + 1 := by
    intro hhigh
    have hlt := e.isLt
    apply he
    apply BitVec.eq_of_toNat_eq
    have hall : (-1#11).toNat = 2047 := rfl
    omega
  have hbits : BitVec.ofNat 52 (1#1 ++ m).toNat = m := by
    apply BitVec.eq_of_toNat_eq
    rw [toNat_implicit_append, BitVec.toNat_ofNat, Nat.add_mod_left, Nat.mod_eq_of_lt m.isLt]
  have hbits' : BitVec.ofNat 11 e.toNat = e := BitVec.ofNat_toNat ..
  rw [pack_finite, hexponent, if_neg hlow, hlog, if_pos rfl, hbits, hbits']

/-- Only bits that stand for no number can be lost. -/
theorem pack_unpack {b : BitVec Format.binary64.numBits} (h : Format.binary64.Valid b) :
    pack .binary64 (unpack .binary64 b) = b := by
  have hparts := packComponents_unpack b
  by_cases hall : unpackExponent b = -1#11
  · by_cases hmantissa : unpackMantissa b = 0#52
    · have hunpack : unpack .binary64 b = .infinity (Sign.ofBitVec (unpackSign b)) :=
        (if_pos hall).trans (if_pos hmantissa)
      rw [hall, hmantissa] at hparts
      rw [hunpack]
      exact hparts
    · have hunpack : unpack .binary64 b = .notANumber := (if_pos hall).trans (if_neg hmantissa)
      rw [hunpack]
      exact (h.eq_packedNaN hall hmantissa).symm
  · by_cases hzero : unpackExponent b = 0#11
    · by_cases hmantissa : unpackMantissa b = 0#52
      · have hunpack : unpack .binary64 b = .zero (Sign.ofBitVec (unpackSign b)) :=
          (if_neg hall).trans ((if_pos hzero).trans (dif_pos hmantissa))
        rw [hzero, hmantissa] at hparts
        rw [hunpack]
        exact hparts
      · have hunpack : unpack .binary64 b = .finite (Sign.ofBitVec (unpackSign b))
            (unpackMantissa b).toNat ((unpackExponent b).toNat - (1023 + 52) + 1) _ :=
          (if_neg hall).trans ((if_pos hzero).trans (dif_neg hmantissa))
        rw [hunpack]
        exact (pack_subnormal _ _ hzero _).trans hparts
    · have hunpack : unpack .binary64 b = .finite (Sign.ofBitVec (unpackSign b))
          (1#1 ++ unpackMantissa b).toNat ((unpackExponent b).toNat - (1023 + 52)) _ :=
        (if_neg hall).trans (if_neg hzero)
      rw [hunpack]
      exact (pack_normal _ _ _ hall _).trans hparts

theorem ofBits_toBits (x : Float) : Float.ofBits x.toBits = x := by
  rcases x with ⟨bits, valid⟩
  have hbits : UInt64.ofBitVec (pack .binary64 (unpack .binary64 bits.toBitVec)) = bits :=
    congrArg UInt64.ofBitVec (pack_unpack valid)
  have hmodel : Float.Model.ofBits bits = ⟨bits, valid⟩ := by
    rw [Float.Model.ofBits, Float.Model.pack, Float.Model.mk.injEq]
    exact hbits
  exact congrArg Float.ofModel hmodel

/-- A double without a sign bit is told by its magnitude. -/
theorem toFloat_magnitude {x : Float} (h : isNegative x = false) : toFloat (magnitude x) = x := by
  have hlow : x.toBits.toNat < 2 ^ 63 := by
    have hbound : ¬ Nat.pow 2 63 ≤ x.toBits.toNat := of_decide_eq_false h
    exact Nat.lt_of_not_le hbound
  have hmagnitude : magnitude x = x.toBits.toNat := Nat.mod_eq_of_lt hlow
  have hbits : (x.toBits.toNat).toUInt64 = x.toBits := UInt64.ofNat_toNat
  rw [toFloat, hmagnitude, hbits, ofBits_toBits]

/-- The bits of a magnitude are those of a double. Only patterns of a NaN could be no double. -/
theorem valid_of_le_infinity {m : Nat} (h : m ≤ infinity) :
    Format.binary64.Valid m.toUInt64.toBitVec := by
  have hbound : infinity < 2 ^ 64 := by decide
  have hbits : m.toUInt64.toBitVec.toNat = m := Nat.mod_eq_of_lt (by omega)
  refine ⟨fun hall hmantissa => absurd (BitVec.eq_of_toNat_eq ?_) hmantissa⟩
  have hexponent : m / 2 ^ 52 % 2 ^ 11 = 2047 := by
    have hall : (m.toUInt64.toBitVec.extractLsb 62 52).toNat = 2047 := congrArg BitVec.toNat hall
    rw [BitVec.extractLsb_toNat, hbits, Nat.shiftRight_eq_div_pow] at hall
    exact hall
  show (m.toUInt64.toBitVec.extractLsb 51 0).toNat = 0
  rw [BitVec.extractLsb_toNat, hbits, Nat.shiftRight_zero]
  have hinfinity : infinity = 2047 * 2 ^ 52 := rfl
  omega

/-- A magnitude gives a double without a sign bit. -/
theorem isNegative_toFloat {m : Nat} (h : m ≤ infinity) : isNegative (toFloat m) = false := by
  have hbits : (toFloat m).toBits = m.toUInt64 :=
    congrArg UInt64.ofBitVec (pack_unpack (valid_of_le_infinity h))
  have hbound : infinity < 2 ^ 63 := by decide
  have hlow : m.toUInt64.toNat < 2 ^ 63 := by
    have hmod : m.toUInt64.toNat = m := Nat.mod_eq_of_lt (by omega)
    omega
  rw [isNegative, hbits]
  exact decide_eq_false (Nat.not_le_of_lt hlow)

theorem nearest_le_infinity (num den : Nat) : nearest num den ≤ infinity :=
  Nat.min_le_right ..

end Treewalk.Binary64

namespace Treewalk

theorem Decimal.nearest_le_infinity (d : Decimal) : d.nearest ≤ Binary64.infinity := by
  unfold nearest
  split
  · exact Binary64.nearest_le_infinity ..
  · exact Binary64.nearest_le_infinity ..

/-- No digits stand for a negative number. -/
theorem Number.isNegative_ofDigits (whole fraction : List Char) :
    Binary64.isNegative (ofDigits whole fraction) = false :=
  Binary64.isNegative_toFloat (Decimal.nearest_le_infinity _)

end Treewalk
