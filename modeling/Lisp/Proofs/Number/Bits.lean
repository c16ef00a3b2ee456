import Lisp.Number.Binary64
import Mathlib

/-!
# Doubles and their bits

A double is its bits, and a pattern of bits that is no variant of not-a-number is a double.  Its
magnitude sits in the lower 63 bits, and the sign bit on top of them says whether it is negated.
-/

namespace Lisp.Number.Binary64

open Float.Model Float.Model.UnpackedFloat

abbrev Pattern : Type := BitVec Format.binary64.numBits

/-! ## 1. The fields of a pattern -/

theorem sign_toBitVec (b : BitVec 1) : (Sign.ofBitVec b).toBitVec = b := by
  have hall : ∀ b : BitVec 1, (Sign.ofBitVec b).toBitVec = b := by decide
  exact hall b

theorem unpackSign_packComponents (s : Sign) (e : BitVec Format.binary64.exponentBits)
    (m : BitVec Format.binary64.mantissaBitsWithoutImplicit) :
    unpackSign (packComponents Format.binary64 s e m) = s.toBitVec := by
  rw [unpackSign, packComponents]
  ext i hi
  simp only [BitVec.extractLsb]
  grind

theorem packComponents_fields (b : Pattern) :
    packComponents Format.binary64 (Sign.ofBitVec (unpackSign b)) (unpackExponent b)
      (unpackMantissa b) = b := by
  rw [packComponents, sign_toBitVec, unpackSign, unpackExponent, unpackMantissa]
  -- Each bit of the pattern is a bit of the one field it lies in.
  ext i hi
  simp only [BitVec.extractLsb]
  grind

theorem toNat_unpackMantissa (b : Pattern) : (unpackMantissa b).toNat = b.toNat % 2 ^ 52 := by
  simp [unpackMantissa]

theorem toNat_unpackExponent (b : Pattern) :
    (unpackExponent b).toNat = b.toNat / 2 ^ 52 % 2 ^ 11 := by
  simp [unpackExponent, Nat.shiftRight_eq_div_pow]

theorem toNat_unpackSign (b : Pattern) : (unpackSign b).toNat = b.toNat / 2 ^ 63 := by
  have hb : b.toNat < 2 ^ 64 := b.isLt
  simp [unpackSign, Nat.shiftRight_eq_div_pow]
  omega

/-- A pattern has a special meaning when all bits of its exponent are set. -/
def IsFinite (b : Pattern) : Prop := b.toNat / 2 ^ 52 % 2 ^ 11 ≠ 2047

theorem IsFinite.exponent_ne {b : Pattern} (h : IsFinite b) : unpackExponent b ≠ -1#_ := by
  intro hexponent
  have hvalue := congrArg BitVec.toNat hexponent
  rw [toNat_unpackExponent] at hvalue
  exact h hvalue

theorem IsFinite.valid {b : Pattern} (h : IsFinite b) : Format.binary64.Valid b :=
  ⟨fun hexponent => absurd hexponent h.exponent_ne⟩

/-! ## 2. Unpacking and packing -/

theorem pack_normal {s : Sign} {e : BitVec Format.binary64.exponentBits}
    {m : BitVec Format.binary64.mantissaBitsWithoutImplicit} {exponent : Int}
    (hpos : 0 < (1#1 ++ m).toNat) (hlast : e ≠ -1#_) (hexponent : exponent = e.toNat - 1075) :
    pack Format.binary64 (.finite s (1#1 ++ m).toNat exponent hpos) =
      packComponents Format.binary64 s e m := by
  have hm : m.toNat < 2 ^ 52 := m.isLt
  have he : e.toNat < 2 ^ 11 := e.isLt
  have he' : e.toNat ≠ 2047 := fun h => hlast (BitVec.eq_of_toNat_eq h)
  -- The bit in front of the mantissa is not stored; packing drops it again.
  have hmantissa : (1#1 ++ m).toNat = 2 ^ 52 + m.toNat := by
    rw [BitVec.toNat_append, ← Nat.shiftLeft_add_eq_or_of_lt hm]
    rfl
  have hbiased : (exponent + (Format.binary64.exponentBias : Nat) +
      (Format.binary64.mantissaBitsWithoutImplicit : Nat)).toNat = e.toNat := by
    show (exponent + 1023 + 52).toNat = e.toNat
    omega
  have hlog : (1#1 ++ m).toNat.log2 = 52 := by
    rw [hmantissa]
    exact (Nat.log2_eq_iff (by omega)).mpr (by omega)
  rw [UnpackedFloat.pack]
  simp only [hbiased]
  rw [if_neg (by show ¬ 2 ^ 11 ≤ _; omega), if_pos (by rw [hlog]; rfl)]
  congr 1
  · exact BitVec.eq_of_toNat_eq (by rw [BitVec.toNat_ofNat]; exact Nat.mod_eq_of_lt he)
  · refine BitVec.eq_of_toNat_eq ?_
    rw [BitVec.toNat_ofNat, hmantissa]
    show (2 ^ 52 + m.toNat) % 2 ^ 52 = m.toNat
    omega

theorem pack_subnormal {s : Sign} {m : BitVec Format.binary64.mantissaBitsWithoutImplicit}
    (hpos : 0 < m.toNat) :
    pack Format.binary64 (.finite s m.toNat (-1074) hpos) =
      packComponents Format.binary64 s 0#_ m := by
  have hm : m.toNat < 2 ^ 52 := m.isLt
  have hlog : m.toNat.log2 < 52 := (Nat.log2_lt (by omega)).mpr hm
  rw [UnpackedFloat.pack, if_neg (by decide), if_neg (by show ¬ _ = 53; omega)]
  congr 1
  exact BitVec.eq_of_toNat_eq (by rw [BitVec.toNat_ofNat]; exact Nat.mod_eq_of_lt hm)

/-- Packing undoes unpacking, except for patterns that are other variants of not-a-number. -/
theorem pack_unpack {b : Pattern} (h : Format.binary64.Valid b) :
    pack Format.binary64 (unpack Format.binary64 b) = b := by
  have hb := packComponents_fields b
  rw [UnpackedFloat.unpack]
  -- The last exponent is that of the special values, the first that of zero and the subnormals.
  split
  · rename_i hlast
    split
    · rename_i hzero
      rw [hlast, hzero] at hb
      exact hb
    · rename_i hnonzero
      exact (h.eq_packedNaN hlast hnonzero).symm
  · rename_i hlast
    split
    · rename_i hfirst
      split
      · rename_i hzero
        rw [hfirst, hzero] at hb
        exact hb
      · rw [hfirst] at hb
        have hexponent : ((unpackExponent b).toNat : Int) - ((Format.binary64.exponentBias : Nat) +
            (Format.binary64.mantissaBitsWithoutImplicit : Nat)) + 1 = -1074 := by
          rw [hfirst]
          rfl
        simp only [hexponent]
        exact (pack_subnormal _).trans hb
    · exact (pack_normal _ hlast rfl).trans hb

theorem unpack_packComponents_neg (s : Sign) (e : BitVec Format.binary64.exponentBits)
    (m : BitVec Format.binary64.mantissaBitsWithoutImplicit) :
    unpack Format.binary64 (packComponents Format.binary64 (-s) e m) =
      (unpack Format.binary64 (packComponents Format.binary64 s e m)).neg := by
  have hsign : ∀ s : Sign, Sign.ofBitVec s.toBitVec = s := by
    intro s
    cases s <;> rfl
  unfold UnpackedFloat.unpack
  simp only [unpackMantissa_packComponents, unpackExponent_packComponents,
    unpackSign_packComponents, hsign]
  split
  · split <;> rfl
  · split
    · split <;> rfl
    · rfl

/-! ## 3. Doubles -/

variable {x : Float}

def pattern (x : Float) : Pattern := x.toBits.toBitVec

theorem eq_of_pattern {x y : Float} (h : pattern x = pattern y) : x = y := by
  obtain ⟨⟨b, hb⟩⟩ := x
  obtain ⟨⟨c, hc⟩⟩ := y
  obtain rfl : b = c := UInt64.toBitVec_inj.mp h
  rfl

theorem pattern_ofBits {bits : UInt64} (h : Format.binary64.Valid bits.toBitVec) :
    pattern (Float.ofBits bits) = bits.toBitVec := pack_unpack h

theorem unpack_pattern (x : Float) :
    UnpackedFloat.pack Format.binary64 (UnpackedFloat.unpack Format.binary64 (pattern x)) =
      pattern x :=
  pack_unpack x.toModel.valid

theorem pattern_neg (x : Float) :
    pattern (-x) =
      UnpackedFloat.pack Format.binary64
        (UnpackedFloat.unpack Format.binary64 (pattern x)).neg := rfl

/-- There is one double that is not a number. -/
theorem eq_of_isNaN (h : x.isNaN = true) : x = Float.ofBits 0x7ff8000000000000 := by
  have hx := unpack_pattern x
  replace h : (UnpackedFloat.unpack Format.binary64 (pattern x)).isNaN = true := h
  refine eq_of_pattern (hx.symm.trans ?_)
  cases hu : UnpackedFloat.unpack Format.binary64 (pattern x) with
  | notANumber => decide
  | _ =>
    rw [hu] at h
    cases h

theorem eq_of_isInf (h : x.isInf = true) :
    x = Float.ofBits (if signBit x then 0xfff0000000000000 else 0x7ff0000000000000) := by
  have hx := unpack_pattern x
  -- A double is determined by what it unpacks to, unless it is not a number.
  replace h : (UnpackedFloat.unpack Format.binary64 (pattern x)).isInf = true := h
  cases hu : UnpackedFloat.unpack Format.binary64 (pattern x) with
  | infinity s =>
    rw [hu] at hx
    cases s with
    | negative =>
      have hsame : x = Float.ofBits 0xfff0000000000000 := eq_of_pattern (hx.symm.trans (by decide))
      rw [hsame]
      decide
    | positive =>
      have hsame : x = Float.ofBits 0x7ff0000000000000 := eq_of_pattern (hx.symm.trans (by decide))
      rw [hsame]
      decide
  | _ =>
    rw [hu] at h
    cases h

theorem isFinite_of_not (hnan : x.isNaN = false) (hinf : x.isInf = false) :
    IsFinite (pattern x) := by
  intro hlast
  have hexponent : unpackExponent (pattern x) = -1#_ := by
    refine BitVec.eq_of_toNat_eq ?_
    rw [toNat_unpackExponent, hlast]
    rfl
  replace hnan : (UnpackedFloat.unpack Format.binary64 (pattern x)).isNaN = false := hnan
  replace hinf : (UnpackedFloat.unpack Format.binary64 (pattern x)).isInf = false := hinf
  rw [UnpackedFloat.unpack, if_pos hexponent] at hnan hinf
  split at hnan
  · rename_i hzero
    rw [if_pos hzero] at hinf
    cases hinf
  · cases hnan

theorem signBit_iff : signBit x = true ↔ 2 ^ 63 ≤ (pattern x).toNat := by
  rw [signBit, decide_eq_true_eq]
  rfl

theorem eq_packComponents {b : Pattern} {s : Sign} (hs : s.toBitVec.toNat = b.toNat / 2 ^ 63) :
    b = packComponents Format.binary64 s (unpackExponent b) (unpackMantissa b) := by
  have hsign : Sign.ofBitVec (unpackSign b) = s := by
    have hbit : unpackSign b = s.toBitVec :=
      BitVec.eq_of_toNat_eq ((toNat_unpackSign b).trans hs.symm)
    rw [hbit]
    cases s <;> rfl
  rw [← hsign, packComponents_fields]

def lowBits (x : Float) : Pattern := (UInt64.ofNat (x.toBits.toNat % 2 ^ 63)).toBitVec

theorem toNat_lowBits (x : Float) : (lowBits x).toNat = (pattern x).toNat % 2 ^ 63 := by
  show x.toBits.toNat % 2 ^ 63 % 2 ^ 64 = x.toBits.toNat % 2 ^ 63
  omega

theorem isFinite_lowBits (hx : IsFinite (pattern x)) : IsFinite (lowBits x) := by
  rw [IsFinite, toNat_lowBits]
  unfold IsFinite at hx
  omega

theorem neg_ofBits_lowBits (hx : IsFinite (pattern x)) (hsign : signBit x = true) :
    -Float.ofBits (UInt64.ofBitVec (lowBits x)) = x := by
  have hlow := toNat_lowBits x
  have hfull := signBit_iff.mp hsign
  have hbound : (pattern x).toNat < 2 ^ 64 := (pattern x).isLt
  have hexponent : unpackExponent (lowBits x) = unpackExponent (pattern x) := by
    refine BitVec.eq_of_toNat_eq ?_
    rw [toNat_unpackExponent, toNat_unpackExponent, hlow]
    omega
  have hmantissa : unpackMantissa (lowBits x) = unpackMantissa (pattern x) := by
    refine BitVec.eq_of_toNat_eq ?_
    rw [toNat_unpackMantissa, toNat_unpackMantissa, hlow]
    omega
  have hpositive : lowBits x = packComponents Format.binary64 .positive
      (unpackExponent (pattern x)) (unpackMantissa (pattern x)) := by
    rw [← hexponent, ← hmantissa]
    refine eq_packComponents ?_
    rw [hlow]
    show 0 = _
    omega
  have hnegative : pattern x = packComponents Format.binary64 (-.positive)
      (unpackExponent (pattern x)) (unpackMantissa (pattern x)) := by
    refine eq_packComponents ?_
    show 1 = _
    omega
  -- The two patterns differ in the sign alone, so negation leads from one to the other.
  refine eq_of_pattern ?_
  have hvalue : pattern (Float.ofBits (UInt64.ofBitVec (lowBits x))) = lowBits x :=
    pattern_ofBits (isFinite_lowBits hx).valid
  rw [pattern_neg, hvalue, hpositive, ← unpack_packComponents_neg, ← hnegative]
  exact unpack_pattern x

theorem ofBits_lowBits (hsign : signBit x = false) :
    Float.ofBits (UInt64.ofBitVec (lowBits x)) = x := by
  have hfull : ¬ 2 ^ 63 ≤ (pattern x).toNat := by
    rw [← signBit_iff, hsign]
    exact Bool.false_ne_true
  have hlow : lowBits x = pattern x := by
    refine BitVec.eq_of_toNat_eq ((toNat_lowBits x).trans ?_)
    omega
  refine eq_of_pattern ?_
  rw [hlow]
  exact pattern_ofBits x.toModel.valid

/-- The double whose magnitude has the lower bits of a finite double, and its sign, is that double. -/
theorem nearest_eq {numerator denominator : Nat} (hx : IsFinite (pattern x))
    (hbits : nearestBits numerator denominator = (pattern x).toNat % 2 ^ 63) :
    nearest (signBit x) numerator denominator = x := by
  have hlow : UInt64.ofNat (nearestBits numerator denominator) = UInt64.ofBitVec (lowBits x) := by
    rw [hbits]
    rfl
  rw [nearest, hlow]
  cases hsign : signBit x with
  | true => exact neg_ofBits_lowBits hx hsign
  | false => exact ofBits_lowBits hsign

/-! ## 4. Magnitudes -/

/-- A magnitude with as many digits as the format has, or with the least exponent. -/
structure Canonical (d : Dyadic) : Prop where
  /-- The mantissa has at most 53 digits. -/
  mantissa_lt : d.mantissa < 2 ^ 53
  /-- It has fewer only at the least exponent. -/
  full : 2 ^ 52 ≤ d.mantissa ∨ d.exponent = leastExponent
  /-- No exponent is less. -/
  exponent_ge : leastExponent ≤ d.exponent
  /-- The greatest exponent is 971. -/
  exponent_le : d.exponent ≤ 971

def magnitudeBits (d : Dyadic) : Nat := (d.exponent - leastExponent).toNat * 2 ^ 52 + d.mantissa

theorem canonical_magnitude (hx : IsFinite (pattern x)) : Canonical (magnitude x) := by
  have hfinite : x.toBits.toNat / 2 ^ 52 % 2 ^ 11 ≠ 2047 := hx
  rw [magnitude]
  split
  · refine ⟨?_, .inr rfl, Int.le_refl _, by show (-1074 : Int) ≤ 971; decide⟩
    show x.toBits.toNat % 2 ^ 52 < 2 ^ 53
    omega
  · refine ⟨?_, .inl ?_, ?_, ?_⟩
    · show 2 ^ 52 + x.toBits.toNat % 2 ^ 52 < 2 ^ 53
      omega
    · show 2 ^ 52 ≤ 2 ^ 52 + x.toBits.toNat % 2 ^ 52
      omega
    · show (-1074 : Int) ≤ -1074 + (_ : Nat)
      omega
    · show (-1074 : Int) + (x.toBits.toNat / 2 ^ 52 % 2 ^ 11 - 1 : Nat) ≤ 971
      omega

theorem magnitudeBits_magnitude (x : Float) :
    magnitudeBits (magnitude x) = (pattern x).toNat % 2 ^ 63 := by
  show _ = x.toBits.toNat % 2 ^ 63
  rw [magnitude]
  split
  · rename_i hfirst
    -- A subnormal has the least exponent, and its mantissa is its fraction.
    show 0 * 2 ^ 52 + x.toBits.toNat % 2 ^ 52 = _
    omega
  · rename_i hfirst
    show (-1074 + (x.toBits.toNat / 2 ^ 52 % 2 ^ 11 - 1 : Nat) - -1074 : Int).toNat * 2 ^ 52 +
      (2 ^ 52 + x.toBits.toNat % 2 ^ 52) = _
    omega

end Lisp.Number.Binary64
