import Lisp.Proofs.Number.Doubles

/-!
# Products and reciprocals of doubles from one on

A product of two doubles that are at least one is rounded by a part in `2 ^ 52` at most, so bounds on
the factors give bounds on the product, `Between.mul`, and with bounds that are close enough one
knows whether the product overflows, `Between.isInf_iff`.  The reciprocal of such a double vanishes
just if the double is infinite: `Between.view_reciprocal`.
-/

namespace Lisp.Number

open Float.Model Float.Model.UnpackedFloat

namespace Binary64

variable {x y : Float} {u v : UnpackedFloat} {low high low' high' : ℚ} {m n : ℕ} {e f : ℤ}

/-! ## 1. Rounding from one on -/

/-- By how much a product may be rounded, in parts of the product. -/
def roundingError : ℚ := 1 / 2 ^ 52

theorem mantissa_shiftRight (extended : ExtendedMantissa) (count : Nat) :
    (extended >>> count).mantissa = extended.mantissa / 2 ^ count := by
  induction count with
  | zero =>
    rw [Nat.pow_zero, Nat.div_one]
    rfl
  | succ count ih =>
    show (extended >>> count).mantissa / 2 = _
    rw [ih, Nat.div_div_eq_div_mul, Nat.pow_succ]

theorem roundToNearestEven_bounds (m : Nat) (accuracy : Accuracy) :
    m ≤ accuracy.roundToNearestEven m ∧ accuracy.roundToNearestEven m ≤ m + 1 := by
  cases accuracy with
  | exact => exact ⟨Nat.le_refl m, Nat.le_succ m⟩
  | inexact half =>
    cases half with
    | lt => exact ⟨Nat.le_refl m, Nat.le_succ m⟩
    | eq =>
      show m ≤ m + m % 2 ∧ m + m % 2 ≤ m + 1
      omega
    | gt => exact ⟨Nat.le_succ m, Nat.le_refl _⟩

/-- A mantissa without the digits behind its 53rd. -/
def leading (m : ℕ) : ℕ := m / 2 ^ (m.log2 - 52)

theorem leading_lt (m : ℕ) : leading m < 2 ^ 53 := by
  have hhigh := Nat.lt_log2_self (n := m)
  have hpower : 2 ^ (m.log2 + 1) ≤ 2 ^ 53 * 2 ^ (m.log2 - 52) := by
    rw [← Nat.pow_add]
    exact Nat.pow_le_pow_right (by decide) (by omega)
  rw [leading, Nat.div_lt_iff_lt_mul (Nat.two_pow_pos _)]
  omega

theorem leading_pos (hm : 0 < m) : 0 < leading m := by
  have hpower : 2 ^ (m.log2 - 52) ≤ 2 ^ m.log2 := Nat.pow_le_pow_right (by decide) (Nat.sub_le _ _)
  exact Nat.div_pos (hpower.trans (Nat.log2_self_le (by omega))) (Nat.two_pow_pos _)

theorem le_leading (hm : 2 ^ 52 ≤ m) : 2 ^ 52 ≤ leading m := by
  have hlog : 52 ≤ m.log2 := (Nat.le_log2 (by omega)).mpr hm
  rw [leading, Nat.le_div_iff_mul_le (Nat.two_pow_pos _), ← Nat.pow_add, Nat.add_sub_cancel' hlog]
  exact Nat.log2_self_le (by omega)

theorem shiftToTargetExponent_eq (he : -1074 ≤ e) (m : ℕ) (accuracy : Accuracy) :
    ∃ extended, shiftToTargetExponent Format.binary64 m e accuracy =
      (extended, e + (m.log2 - 52 : ℕ)) ∧ extended.mantissa = leading m := by
  have hamount : (Format.binary64.targetExponent (totalExponent m e) - e).toNat = m.log2 - 52 := by
    show (max ((m.log2 : Int) + 1 + e - 53) (-1074) - e).toNat = m.log2 - 52
    omega
  have hmantissa : (ExtendedMantissa.ofMantissaAndAccuracy m accuracy).mantissa = m := by
    cases accuracy with
    | exact => rfl
    | inexact half => cases half <;> rfl
  refine ⟨ExtendedMantissa.ofMantissaAndAccuracy m accuracy >>> (m.log2 - 52), ?_, ?_⟩
  · simp only [shiftToTargetExponent, shiftToExponent, hamount]
  · rw [mantissa_shiftRight, hmantissa, leading]

def valueOf (m : ℕ) (e : ℤ) : ℚ := m * 2 ^ e

theorem valueOf_shift (m n : ℕ) (e : ℤ) : valueOf m (e + n) = valueOf (m * 2 ^ n) e := by
  unfold valueOf
  rw [zpow_add₀ (by norm_num), zpow_natCast]
  push_cast
  ring

theorem valueOf_mono (h : m ≤ n) (e : ℤ) : valueOf m e ≤ valueOf n e :=
  mul_le_mul_of_nonneg_right (Nat.cast_le.mpr h) (by positivity)

theorem two_zpow_le_valueOf {k : ℤ} (hfull : 2 ^ 52 ≤ m) (hk : k ≤ e) :
    (2 : ℚ) ^ (52 + k) ≤ valueOf m e := by
  have hcast : (2 ^ 52 : ℚ) ≤ m := by exact_mod_cast hfull
  have hstep : (2 : ℚ) ^ k ≤ 2 ^ e := zpow_le_zpow_right₀ (by norm_num) hk
  rw [zpow_add₀ (by norm_num)]
  exact mul_le_mul hcast hstep (by positivity) (by positivity)

theorem rounded_bounds {r : ℕ} (hm : 2 ^ 52 ≤ m) (hle : leading m ≤ r) (hge : r ≤ leading m + 1)
    (e : ℤ) :
    (1 - roundingError) * valueOf m e ≤ valueOf r (e + (m.log2 - 52 : ℕ)) ∧
      valueOf r (e + (m.log2 - 52 : ℕ)) ≤ (1 + roundingError) * valueOf m e := by
  generalize hs : m.log2 - 52 = s
  have hfloor : valueOf (leading m) (e + s) ≤ valueOf m e := by
    rw [valueOf_shift, leading, hs]
    exact valueOf_mono (Nat.div_mul_le_self m _) e
  have hceil : valueOf m e ≤ valueOf (leading m + 1) (e + s) := by
    rw [valueOf_shift, leading, hs, mul_comm]
    exact valueOf_mono (Nat.lt_mul_div_succ m (Nat.two_pow_pos s)).le e
  have hsucc : valueOf (leading m + 1) (e + s) = valueOf (leading m) (e + s) + 2 ^ (e + s) := by
    unfold valueOf
    push_cast
    ring
  -- One unit of the last digit that is kept is a small part of the value.
  have hunit : (2 : ℚ) ^ (e + s) ≤ roundingError * valueOf (leading m) (e + s) := by
    have hcast : (2 ^ 52 : ℚ) ≤ leading m := by exact_mod_cast le_leading hm
    have hpower : (0 : ℚ) < 2 ^ (e + s) := by positivity
    unfold roundingError valueOf
    rw [← mul_assoc]
    refine le_mul_of_one_le_left hpower.le ?_
    linarith
  have herror : (0 : ℚ) ≤ roundingError := by norm_num [roundingError]
  have hscaled := mul_le_mul_of_nonneg_left hfloor herror
  have hr := valueOf_mono hle (e + s)
  have hr' := valueOf_mono hge (e + s)
  constructor <;> linarith

/-- A magnitude is rounded to 53 digits, and if it has that many it is changed by little. -/
theorem roundWithAccuracy_spec (s : Sign) (hm : 0 < m) (he : -1074 ≤ e) (accuracy : Accuracy) :
    ∃ n f hn, roundWithAccuracy Format.binary64 s m e accuracy = .finite s n f hn ∧
      n < 2 ^ 53 ∧ e + (m.log2 - 52 : ℕ) ≤ f ∧ f ≤ e + (m.log2 - 52 : ℕ) + 1 ∧
      (2 ^ 52 ≤ m → 2 ^ 52 ≤ n ∧ (1 - roundingError) * valueOf m e ≤ valueOf n f ∧
        valueOf n f ≤ (1 + roundingError) * valueOf m e) := by
  obtain ⟨first, hshift, hfirst⟩ := shiftToTargetExponent_eq he m accuracy
  obtain ⟨hle, hge⟩ := roundToNearestEven_bounds first.mantissa first.accuracy
  replace hle : first.mantissa ≤ first.roundedMantissa := hle
  replace hge : first.roundedMantissa ≤ first.mantissa + 1 := hge
  rw [hfirst] at hle hge
  have hlt := leading_lt m
  have hpos := leading_pos hm
  -- Rounding up may carry into one digit more, so the result is shifted once again.
  obtain ⟨second, hshift', hsecond⟩ := shiftToTargetExponent_eq
    (e := e + (m.log2 - 52 : ℕ)) (by omega) first.roundedMantissa .exact
  have hcarry : first.roundedMantissa.log2 - 52 ≤ 1 ∧
      leading first.roundedMantissa * 2 ^ (first.roundedMantissa.log2 - 52) =
        first.roundedMantissa := by
    rcases Nat.lt_or_eq_of_le (show first.roundedMantissa ≤ 2 ^ 53 by omega) with hless | htop
    · have hlog : first.roundedMantissa.log2 < 53 := (Nat.log2_lt (by omega)).mpr hless
      rw [leading, show first.roundedMantissa.log2 - 52 = 0 by omega]
      exact ⟨Nat.zero_le 1, Nat.div_mul_cancel (Nat.one_dvd _)⟩
    · rw [htop]
      decide
  have hpos' : 0 < second.mantissa := hsecond ▸ leading_pos (by omega)
  refine ⟨second.mantissa, e + (m.log2 - 52 : ℕ) + (first.roundedMantissa.log2 - 52 : ℕ), hpos', ?_,
    hsecond ▸ leading_lt _, by omega, by omega, ?_⟩
  · simp only [roundWithAccuracy, hshift, hshift']
    rw [dif_neg (by omega)]
  · intro hfull
    have hbounds := rounded_bounds hfull hle hge e
    rw [← hcarry.2, ← valueOf_shift, ← hsecond] at hbounds
    exact ⟨hsecond ▸ le_leading ((le_leading hfull).trans hle), hbounds⟩

/-! ## 2. Magnitudes from one on -/

/-- The magnitude lies between two rationals.  It has all 53 digits, the lowest of them no lower than
that of one, or it is infinite, and the upper rational is beyond all doubles. -/
inductive UnpackedFloat.Between (low high : ℚ) : UnpackedFloat → Prop
  | infinity (hhigh : 2 ^ 1024 ≤ high) : Between low high (.infinity .positive)
  | finite {m : ℕ} {e : ℤ} (hm : 0 < m) (hfull : 2 ^ 52 ≤ m) (hlt : m < 2 ^ 53) (he : -52 ≤ e)
      (hlow : low ≤ valueOf m e) (hhigh : valueOf m e ≤ high) :
      Between low high (.finite .positive m e hm)

theorem UnpackedFloat.Between.one_le (h : UnpackedFloat.Between low high u) : 1 ≤ high := by
  cases h with
  | infinity hhigh => exact (one_le_pow₀ (by norm_num)).trans hhigh
  | @finite m e hm hfull hlt he hlow hhigh =>
    exact (two_zpow_le_valueOf hfull he).trans hhigh

theorem valueOf_mul (m n : ℕ) (e f : ℤ) :
    valueOf (m * n) (e + f) = valueOf m e * valueOf n f := by
  unfold valueOf
  rw [zpow_add₀ (by norm_num)]
  push_cast
  ring

theorem overflow_le_mul (hhigh : 2 ^ 1024 ≤ high) (hhigh' : 1 ≤ high') :
    2 ^ 1024 ≤ (1 + roundingError) * (high * high') := by
  have herror : (1 : ℚ) ≤ 1 + roundingError := by norm_num [roundingError]
  have hpos : (0 : ℚ) ≤ 2 ^ 1024 := by positivity
  calc (2 : ℚ) ^ 1024 ≤ high := hhigh
    _ ≤ high * high' := le_mul_of_one_le_right (hpos.trans hhigh) hhigh'
    _ ≤ (1 + roundingError) * (high * high') :=
        le_mul_of_one_le_left (mul_nonneg (hpos.trans hhigh) (by linarith)) herror

theorem between_mul (hu : UnpackedFloat.Between low high u) (hv : UnpackedFloat.Between low' high' v)
    (hlow : 0 ≤ low) (hlow' : 0 ≤ low') :
    UnpackedFloat.Between ((1 - roundingError) * (low * low')) ((1 + roundingError) * (high * high'))
      (UnpackedFloat.mul Format.binary64 u v) := by
  have hu' := hu.one_le
  have hv' := hv.one_le
  cases hu with
  | infinity hhigh => cases hv <;> exact .infinity (overflow_le_mul hhigh hv')
  | @finite m e _ hm hm' he hmin hmax =>
    cases hv with
    | infinity hhigh => exact .infinity (mul_comm high high' ▸ overflow_le_mul hhigh hu')
    | @finite n f _ hn hn' hf hmin' hmax' =>
      have hproduct : 2 ^ 52 * 2 ^ 52 ≤ m * n := Nat.mul_le_mul hm hn
      have hlog : 104 ≤ (m * n).log2 := (Nat.le_log2 (by omega)).mpr (by omega)
      obtain ⟨k, g, hk, hround, hlt, hexponent, -, hwide⟩ :=
        roundWithAccuracy_spec (m := m * n) (e := e + f) .positive (by omega) (by omega) .exact
      obtain ⟨hfull, hbelow, habove⟩ := hwide (by omega)
      rw [valueOf_mul] at hbelow habove
      have herror : (0 : ℚ) ≤ 1 - roundingError := by norm_num [roundingError]
      have herror' : (0 : ℚ) ≤ 1 + roundingError := by norm_num [roundingError]
      have hvalue : (0 : ℚ) ≤ valueOf m e := hlow.trans hmin
      have hfactor := mul_le_mul hmin hmin' hlow' hvalue
      have hfactor' := mul_le_mul hmax hmax' (hlow'.trans hmin') (hvalue.trans hmax)
      show UnpackedFloat.Between _ _
        (roundWithAccuracy Format.binary64 .positive (m * n) (e + f) .exact)
      rw [hround]
      exact .finite hk hfull hlt (by omega)
        ((mul_le_mul_of_nonneg_left hfactor herror).trans hbelow)
        (habove.trans (mul_le_mul_of_nonneg_left hfactor' herror'))

theorem unpack_packComponents_normal {s : Sign} {e : BitVec Format.binary64.exponentBits}
    {m : BitVec Format.binary64.mantissaBitsWithoutImplicit} (hpos : 0 < (1#1 ++ m).toNat)
    (hlast : e ≠ -1#_) (hfirst : e ≠ 0#_) :
    unpack Format.binary64 (packComponents Format.binary64 s e m) =
      .finite s (1#1 ++ m).toNat (e.toNat - 1075) hpos := by
  simp only [UnpackedFloat.unpack, unpackMantissa_packComponents, unpackExponent_packComponents,
    unpackSign_packComponents]
  rw [if_neg hlast, if_neg hfirst]
  cases s <;> rfl

theorem unpack_pack_normal (s : Sign) (hm : 0 < m) (hfull : 2 ^ 52 ≤ m) (hlt : m < 2 ^ 53)
    (he : -1074 ≤ e) (he' : e ≤ 971) :
    unpack Format.binary64 (pack Format.binary64 (.finite s m e hm)) = .finite s m e hm := by
  have hlog : m.log2 = 52 := (Nat.log2_eq_iff (by omega)).mpr ⟨hfull, hlt⟩
  have hfield : (BitVec.ofNat 11 (e + 1023 + 52).toNat).toNat = (e + 1023 + 52).toNat := by
    rw [BitVec.toNat_ofNat, Nat.mod_eq_of_lt (by omega)]
  have hmantissa : (1#1 ++ BitVec.ofNat 52 m).toNat = m := by
    rw [BitVec.toNat_append, ← Nat.shiftLeft_add_eq_or_of_lt (BitVec.isLt _), BitVec.toNat_ofNat]
    show 2 ^ 52 + m % 2 ^ 52 = m
    omega
  have hexponent : ((BitVec.ofNat 11 (e + 1023 + 52).toNat).toNat : ℤ) - 1075 = e := by
    rw [hfield]
    omega
  -- The exponent field is neither that of the special values nor that of the subnormals.
  have hunpack := unpack_packComponents_normal (s := s)
    (e := BitVec.ofNat 11 (e + 1023 + 52).toNat) (m := BitVec.ofNat 52 m)
    (hm.trans_eq hmantissa.symm)
    (fun h => by
      replace hfield : (e + 1023 + 52).toNat = 2047 := hfield ▸ congrArg BitVec.toNat h
      omega)
    (fun h => by
      replace hfield : (e + 1023 + 52).toNat = 0 := hfield ▸ congrArg BitVec.toNat h
      omega)
  have hbiased : ¬ 2 ^ 11 ≤ (e + 1023 + 52).toNat + 1 := by omega
  rw [UnpackedFloat.pack]
  refine (congrArg _ ((if_neg hbiased).trans (if_pos (by rw [hlog]; rfl)))).trans ?_
  refine hunpack.trans ?_
  simp only [hmantissa, hexponent]

theorem unpack_pack_overflow (s : Sign) (hm : 0 < m) (he : 972 ≤ e) :
    unpack Format.binary64 (pack Format.binary64 (.finite s m e hm)) = .infinity s := by
  have hbiased : 2 ^ 11 ≤ (e + 1023 + 52).toNat + 1 := by omega
  rw [UnpackedFloat.pack]
  refine (congrArg _ (if_pos hbiased)).trans ?_
  cases s <;> rfl

theorem exists_unpack_pack_eq_finite (s : Sign) (hm : 0 < m) (hlt : m < 2 ^ 53) (he : -1074 ≤ e)
    (he' : e ≤ 971) :
    ∃ n f hn, unpack Format.binary64 (pack Format.binary64 (.finite s m e hm)) =
      .finite s n f hn := by
  rcases Nat.lt_or_ge m (2 ^ 52) with hless | hfull
  · have hlog : m.log2 < 52 := (Nat.log2_lt (by omega)).mpr hless
    have hbiased : ¬ 2 ^ 11 ≤ (e + 1023 + 52).toNat + 1 := by omega
    have hmantissa : (BitVec.ofNat 52 m).toNat = m := by
      rw [BitVec.toNat_ofNat, Nat.mod_eq_of_lt hless]
    have hsome : BitVec.ofNat 52 m ≠ 0#52 := fun h => by
      rw [h] at hmantissa
      replace hmantissa : 0 = m := hmantissa
      omega
    have hpack : pack Format.binary64 (.finite s m e hm) =
        packComponents Format.binary64 s 0#_ (BitVec.ofNat 52 m) := by
      rw [UnpackedFloat.pack]
      exact (if_neg hbiased).trans (if_neg fun h => by
        replace h : m.log2 + 1 = 53 := h
        omega)
    rw [hpack, UnpackedFloat.unpack]
    simp only [unpackMantissa_packComponents, unpackExponent_packComponents,
      unpackSign_packComponents]
    rw [if_neg (by decide), if_pos trivial, dif_neg hsome]
    refine ⟨(BitVec.ofNat 52 m).toNat, -1074, hm.trans_eq hmantissa.symm, ?_⟩
    cases s <;> rfl
  · exact ⟨m, e, hm, unpack_pack_normal s hm hfull hlt he he'⟩

/-- Packing keeps the 53 digits of a magnitude, or makes it infinite. -/
theorem between_unpack_pack (hu : UnpackedFloat.Between low high u) :
    UnpackedFloat.Between low high (unpack Format.binary64 (pack Format.binary64 u)) := by
  cases hu with
  | infinity hhigh =>
    have hinfinity : unpack Format.binary64 (packedInfinity Format.binary64 .positive) =
        .infinity .positive := rfl
    exact hinfinity ▸ .infinity hhigh
  | @finite m e hm hfull hlt he hlow hhigh =>
    rcases le_or_gt e 971 with hsmall | hbig
    · rw [unpack_pack_normal _ hm hfull hlt (by omega) hsmall]
      exact .finite hm hfull hlt he hlow hhigh
    · rw [unpack_pack_overflow _ hm hbig]
      have hvalue : (2 : ℚ) ^ (52 + 972 : ℤ) ≤ valueOf m e := two_zpow_le_valueOf hfull hbig
      exact .infinity ((zpow_natCast (2 : ℚ) 1024).symm.trans_le (hvalue.trans hhigh))

def Between (low high : ℚ) (x : Float) : Prop := UnpackedFloat.Between low high (view x)

theorem Between.mul (hx : Between low high x) (hy : Between low' high' y) (hlow : 0 ≤ low)
    (hlow' : 0 ≤ low') :
    Between ((1 - roundingError) * (low * low')) ((1 + roundingError) * (high * high')) (x * y) :=
  between_unpack_pack (between_mul hx hy hlow hlow')

theorem between_one : Between 1 1 1.0 := by
  have hview : view 1.0 = .finite .positive (2 ^ 52) (-52) (by decide) := rfl
  have hvalue : valueOf (2 ^ 52) (-52) = 1 := by norm_num [valueOf]
  rw [Between, hview]
  exact .finite _ (by decide) (by decide) (by decide) hvalue.ge hvalue.le

theorem between_ten : Between 10 10 10.0 := by
  have hview : view 10.0 = .finite .positive (5 * 2 ^ 50) (-49) (by decide) := rfl
  have hvalue : valueOf (5 * 2 ^ 50) (-49) = 10 := by norm_num [valueOf]
  rw [Between, hview]
  exact .finite _ (by decide) (by decide) (by decide) hvalue.ge hvalue.le

theorem exponent_le_of_view {s : Sign} {hm : 0 < m} (h : view x = .finite s m e hm) : e ≤ 971 := by
  have hfield : (unpackExponent (pattern x)).toNat < 2 ^ 11 := (unpackExponent (pattern x)).isLt
  rw [view, UnpackedFloat.unpack] at h
  split at h
  · split at h <;> cases h
  · rename_i hlast
    have hne : (unpackExponent (pattern x)).toNat ≠ 2047 := fun heq =>
      hlast (BitVec.eq_of_toNat_eq heq)
    split at h
    · rename_i hfirst
      split at h
      · cases h
      · cases h
        rw [hfirst]
        decide
    · cases h
      show ((unpackExponent (pattern x)).toNat : ℤ) - 1075 ≤ 971
      omega

theorem Between.isInf_iff (hx : Between low high x) (h : low < 2 ^ 1024 → high < 2 ^ 1024) :
    x.isInf = true ↔ 2 ^ 1024 ≤ low := by
  rw [Binary64.isInf_iff]
  unfold Between at hx
  generalize hview : view x = u at hx
  cases hx with
  | infinity hhigh => exact iff_of_true ⟨_, rfl⟩ (not_lt.mp fun hlow => (h hlow).not_ge hhigh)
  | @finite m e hm hfull hlt he hlow hhigh =>
    refine iff_of_false (fun hinf => by obtain ⟨s, hs⟩ := hinf; cases hs) (not_le.mpr ?_)
    have hexponent := exponent_le_of_view hview
    have hcast : (m : ℚ) < 2 ^ 53 := by exact_mod_cast hlt
    have hstep : (2 : ℚ) ^ e ≤ 2 ^ (971 : ℤ) := zpow_le_zpow_right₀ (by norm_num) hexponent
    calc low ≤ valueOf m e := hlow
      _ < 2 ^ 53 * 2 ^ (971 : ℤ) := mul_lt_mul hcast hstep (by positivity) (by positivity)
      _ = 2 ^ (53 + 971 : ℤ) := by rw [zpow_add₀ (by norm_num)]; rfl
      _ = 2 ^ 1024 := zpow_natCast (2 : ℚ) 1024

theorem Between.isNaN (hx : Between low high x) : x.isNaN = false := by
  rw [← Bool.not_eq_true, isNaN_iff]
  intro hnan
  rw [Between, hnan] at hx
  cases hx

theorem Between.not_isZero (hx : Between low high x) : ¬ IsZero x := by
  rw [isZero_iff]
  rintro ⟨s, hzero⟩
  rw [Between, hzero] at hx
  cases hx

/-! ## 3. Reciprocals -/

/-- The quotient of two magnitudes of 53 digits has between 51 and 54 digits, for the dividend is
shifted as far as the least exponent allows. -/
theorem divCore_spec (hfull : 2 ^ 52 ≤ n) (hlt : n < 2 ^ 53) (hlow : -52 ≤ f)
    (hhigh : f ≤ 971) :
    ∃ q k accuracy, divCore Format.binary64 (2 ^ 52) (-52) n f = (q, k, accuracy) ∧ 0 < q ∧
      q ≤ 2 ^ 53 ∧ -1074 ≤ k ∧ k ≤ -53 := by
  have hlog : n.log2 = 52 := (Nat.log2_eq_iff (by omega)).mpr ⟨hfull, hlt⟩
  have htarget : min (-52 - f)
      (Format.binary64.targetExponent (totalExponent (2 ^ 52) (-52) - totalExponent n f)) =
        max (-105 - f) (-1074) := by
    show min (-52 - f) (max (((2 ^ 52 : ℕ).log2 : ℤ) + 1 + -52 - ((n.log2 : ℤ) + 1 + f) - 53)
      (-1074)) = _
    rw [hlog, show (2 ^ 52 : ℕ).log2 = 52 by decide]
    omega
  generalize hshift : (-52 - f - max (-105 - f) (-1074)).toNat = shift
  have hleast : 2 ^ 51 ≤ 2 ^ shift := Nat.pow_le_pow_right (by decide) (by omega)
  have hmost : 2 ^ shift ≤ 2 ^ 53 := Nat.pow_le_pow_right (by decide) (by omega)
  refine ⟨2 ^ 52 * 2 ^ shift / n, max (-105 - f) (-1074),
    accuracyOfFraction (2 ^ 52 * 2 ^ shift % n) n, ?_, ?_, ?_, by omega, by omega⟩
  · simp only [divCore, htarget, hshift, Nat.shiftLeft_eq]
  · exact Nat.div_pos (by omega) (by omega)
  · exact Nat.div_le_of_le_mul (Nat.mul_le_mul hfull hmost)

theorem Between.view_reciprocal (hx : Between low high x) :
    x.isInf = true ∧ view (1.0 / x) = .zero .positive ∨
      x.isInf = false ∧ ∃ m e hm, view (1.0 / x) = .finite .positive m e hm := by
  have hone : view 1.0 = .finite .positive (2 ^ 52) (-52) (by decide) := rfl
  have hquotient : view (1.0 / x) = unpack Format.binary64
      (pack Format.binary64 (UnpackedFloat.div Format.binary64 (view 1.0) (view x))) := rfl
  rw [← Bool.not_eq_true, Binary64.isInf_iff, hquotient, hone]
  unfold Between at hx
  generalize hview : view x = u at hx
  cases hx with
  | infinity hhigh => exact .inl ⟨⟨_, rfl⟩, rfl⟩
  | @finite n f hn hfull hlt hf hlow hhigh =>
    refine .inr ⟨?_, ?_⟩
    · rintro ⟨s, hs⟩
      cases hs
    obtain ⟨q, k, accuracy, hcore, hq, hq', hk, hk'⟩ :=
      divCore_spec hfull hlt hf (exponent_le_of_view hview)
    obtain ⟨m, e, hm, hround, hm', he, he', -⟩ := roundWithAccuracy_spec .positive hq hk accuracy
    have hlog : q.log2 < 54 := (Nat.log2_lt (by omega)).mpr (by omega)
    have hdiv : UnpackedFloat.div Format.binary64 (.finite .positive (2 ^ 52) (-52) (by decide))
        (.finite .positive n f hn) = .finite .positive m e hm := by
      simp only [UnpackedFloat.div, hcore]
      exact hround
    rw [hdiv]
    exact exists_unpack_pack_eq_finite .positive hm hm' (by omega) (by omega)

end Binary64

end Lisp.Number
