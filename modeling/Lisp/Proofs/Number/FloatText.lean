import Lisp.Proofs.Number.Numeral
import Lisp.Proofs.Number.Shortest
import Lisp.Value.Printer

/-!
# The text of a double reads back as the double

The printed text of a finite double is positional: digits, a point, and digits.  The point only moves
the decimal, so what is read is the double nearest to the shortest decimal, and that is the double.
-/

namespace Lisp.Number

/-! ## 1. Positional texts -/

structure Positional (text : List Char) (value : ℚ) (whole fraction : List Char) (n : ℕ) : Prop where
  /-- The text has a point between two parts. -/
  text_eq : text = whole ++ '.' :: fraction
  /-- A digit stands in front. -/
  whole_ne : whole ≠ []
  /-- The part in front of the point holds digits. -/
  whole_decimal : IsDecimal whole
  /-- The part behind the point holds digits. -/
  fraction_decimal : IsDecimal fraction
  /-- All digits together denote a number. -/
  digits_eq : natOfDigits 10 (whole ++ fraction) = some n
  /-- The digits behind the point divide it by powers of ten. -/
  value_eq : (n : ℚ) / (10 ^ fraction.length : ℕ) = value

theorem ten_zpow_of_nonneg {e : ℤ} (he : 0 ≤ e) : (10 : ℚ) ^ e = 10 ^ e.toNat := by
  rw [← zpow_natCast, Int.toNat_of_nonneg he]

theorem ten_zpow_of_neg {e : ℤ} (he : e ≤ 0) : (10 : ℚ) ^ e = 1 / 10 ^ (-e).toNat := by
  rw [← zpow_natCast, Int.toNat_of_nonneg (by omega), zpow_neg, one_div, inv_inv]

theorem positional_whole {d : Decimal} (hplaces : (-d.exponent).toNat = 0) :
    Positional (FloatLayout.positionalText true d) (d.digits * 10 ^ d.exponent)
      (Nat.toDigits 10 d.digits ++ List.replicate d.exponent.toNat '0') ['0']
      (d.digits * 10 ^ (d.exponent.toNat + 1)) where
  text_eq := by
    rw [FloatLayout.positionalText]
    simp only [hplaces]
    rfl
  whole_ne := by simp
  whole_decimal := (isDecimal_toDigits _).append (isDecimal_replicate_zero _)
  fraction_decimal := isDecimal_replicate_zero 1
  digits_eq := by
    -- The zero behind the point is one more zero at the right of the digits.
    have hzeros := @natOfDigits_toDigits_zeros 10 (by decide) (by decide) d.digits
      (d.exponent.toNat + 1)
    rwa [List.replicate_succ', ← List.append_assoc] at hzeros
  value_eq := by
    rw [ten_zpow_of_nonneg (by omega)]
    push_cast
    rw [pow_succ]
    simp
    field_simp

theorem positional_split {d : Decimal} (hplaces : (-d.exponent).toNat ≠ 0)
    (hshort : (-d.exponent).toNat < (Nat.toDigits 10 d.digits).length) :
    Positional (FloatLayout.positionalText true d) (d.digits * 10 ^ d.exponent)
      ((Nat.toDigits 10 d.digits).take ((Nat.toDigits 10 d.digits).length - (-d.exponent).toNat))
      ((Nat.toDigits 10 d.digits).drop ((Nat.toDigits 10 d.digits).length - (-d.exponent).toNat))
      d.digits where
  text_eq := by
    rw [FloatLayout.positionalText]
    simp only [if_neg hplaces, if_pos hshort]
  whole_ne := by
    rw [← List.length_pos_iff, List.length_take]
    omega
  whole_decimal := fun c hc => isDecimal_toDigits _ c (List.mem_of_mem_take hc)
  fraction_decimal := fun c hc => isDecimal_toDigits _ c (List.mem_of_mem_drop hc)
  digits_eq := by
    rw [List.take_append_drop]
    exact natOfDigits_toDigits (by decide) (by decide) _
  value_eq := by
    rw [ten_zpow_of_neg (by omega), List.length_drop, Nat.sub_sub_self hshort.le]
    push_cast
    ring

theorem positional_small {d : Decimal} (hplaces : (-d.exponent).toNat ≠ 0)
    (hlong : ¬ (-d.exponent).toNat < (Nat.toDigits 10 d.digits).length) :
    Positional (FloatLayout.positionalText true d) (d.digits * 10 ^ d.exponent) ['0']
      (List.replicate ((-d.exponent).toNat - (Nat.toDigits 10 d.digits).length) '0' ++
        Nat.toDigits 10 d.digits) d.digits where
  text_eq := by
    rw [FloatLayout.positionalText]
    simp only [if_neg hplaces, if_neg hlong]
    rfl
  whole_ne := by simp
  whole_decimal := isDecimal_replicate_zero 1
  fraction_decimal := (isDecimal_replicate_zero _).append (isDecimal_toDigits _)
  digits_eq := by
    rw [← List.append_assoc]
    exact natOfDigits_zeros_toDigits (by decide) (by decide)
      ((-d.exponent).toNat - (Nat.toDigits 10 d.digits).length + 1) _
  value_eq := by
    rw [ten_zpow_of_neg (by omega), List.length_append, List.length_replicate,
      Nat.sub_add_cancel (by omega)]
    push_cast
    ring

theorem positional_positionalText (d : Decimal) :
    ∃ whole fraction n, Positional (FloatLayout.positionalText true d)
      (d.digits * 10 ^ d.exponent) whole fraction n := by
  by_cases hplaces : (-d.exponent).toNat = 0
  · exact ⟨_, _, _, positional_whole hplaces⟩
  · by_cases hshort : (-d.exponent).toNat < (Nat.toDigits 10 d.digits).length
    · exact ⟨_, _, _, positional_split hplaces hshort⟩
    · exact ⟨_, _, _, positional_small hplaces hshort⟩

/-! ## 2. Doubles -/

open Binary64

theorem nearestBits_decimalOf {x : Float} (hx : IsFinite (pattern x)) {n denominator : ℕ}
    (hdenominator : 0 < denominator)
    (hvalue : (n / denominator : ℚ) = (FloatLayout.decimalOf x).digits *
      10 ^ (FloatLayout.decimalOf x).exponent) :
    nearestBits n denominator = (pattern x).toNat % 2 ^ 63 := by
  have hcanonical := canonical_magnitude hx
  rw [← magnitudeBits_magnitude]
  rw [FloatLayout.decimalOf] at hvalue
  by_cases hzero : (magnitude x).mantissa = 0
  · -- Zero has no interval; only its own quotient is zero.
    simp only [if_pos hzero] at hvalue
    have hn : n = 0 := by
      have hd : (denominator : ℚ) ≠ 0 := by positivity
      simpa [hd] using hvalue
    have hexponent : (magnitude x).exponent = leastExponent := by
      have hfull := hcanonical.full
      omega
    rw [nearestBits, if_pos hn, magnitudeBits, hzero, hexponent]
    rfl
  · simp only [if_neg hzero] at hvalue
    refine nearestBits_of_mem hcanonical (by omega) hdenominator ?_
    rw [hvalue]
    exact mem_shortest hcanonical (by omega)

theorem text_eq_positional {x : Float} (hnan : x.isNaN = false) (hinf : x.isInf = false) :
    printedFloat.text x =
      if signBit x then '-' :: FloatLayout.positionalText true (FloatLayout.decimalOf x)
      else FloatLayout.positionalText true (FloatLayout.decimalOf x) := by
  rw [FloatLayout.text, hnan, hinf]
  rfl

/-- The printed text of a finite double denotes it. -/
theorem read_text {x : Float} (hnan : x.isNaN = false) (hinf : x.isInf = false) :
    Literal.read (printedFloat.text x) = some (.float x) := by
  have hx := isFinite_of_not hnan hinf
  obtain ⟨whole, fraction, n, h⟩ := positional_positionalText (FloatLayout.decimalOf x)
  have hbits := nearestBits_decimalOf hx (by positivity) h.value_eq
  rw [text_eq_positional hnan hinf, h.text_eq,
    read_point h.whole_decimal h.fraction_decimal (signBit x) h.digits_eq, nearest_eq hx hbits]

end Lisp.Number
