import Lisp.Number.Shortest
import Lisp.Proofs.Number.Bits

/-!
# Rounding to the nearest double

Every rational of the rounding interval of a magnitude has the bits of that magnitude as its nearest
bits, `nearestBits_of_mem`.  The binade of the rational is that of the magnitude, except just below a
power of two, where rounding carries into the next binade.
-/

namespace Lisp.Number

namespace Binary64

variable {numerator denominator : ℕ}

/-! ## 1. Quotients and powers -/

theorem zpow_eq_div (base : ℕ) (hbase : 0 < base) (e : ℤ) :
    (base : ℚ) ^ e = (base ^ e.toNat : ℕ) / (base ^ (-e).toNat : ℕ) := by
  have hne : (base : ℚ) ≠ 0 := by positivity
  rcases le_total 0 e with h | h
  · obtain ⟨n, rfl⟩ := Int.eq_ofNat_of_zero_le h
    simp
  · obtain ⟨n, hn⟩ := Int.eq_ofNat_of_zero_le (Int.neg_nonneg.mpr h)
    obtain rfl : e = -n := by omega
    simp

theorem powerLe_iff (numerator : ℕ) (hdenominator : 0 < denominator) (e : ℤ) :
    powerLe e numerator denominator = true ↔ (2 : ℚ) ^ e ≤ numerator / denominator := by
  have hpow := zpow_eq_div 2 (by norm_num) e
  have hd : (0 : ℚ) < denominator := by exact_mod_cast hdenominator
  rw [powerLe, decide_eq_true_eq, show ((2 : ℚ) = (2 : ℕ)) by norm_num, hpow,
    div_le_div_iff₀ (by positivity) hd, ← Nat.cast_mul, ← Nat.cast_mul, Nat.cast_le,
    Nat.mul_comm denominator]

theorem two_zpow_le_log2 {n : ℕ} (hn : 0 < n) : (2 : ℚ) ^ (n.log2 : ℤ) ≤ n := by
  rw [zpow_natCast]
  exact_mod_cast Nat.log2_self_le hn.ne'

theorem lt_two_zpow_log2 (n : ℕ) : (n : ℚ) < 2 ^ ((n.log2 : ℤ) + 1) := by
  have h : n < 2 ^ (n.log2 + 1) := Nat.lt_log2_self
  exact_mod_cast h

theorem floorLog2_spec (hnumerator : 0 < numerator) (hdenominator : 0 < denominator) :
    (2 : ℚ) ^ floorLog2 numerator denominator ≤ numerator / denominator ∧
      (numerator / denominator : ℚ) < 2 ^ (floorLog2 numerator denominator + 1) := by
  have hd : (0 : ℚ) < denominator := by exact_mod_cast hdenominator
  have htwo : (2 : ℚ) ≠ 0 := by norm_num
  have hnlow := two_zpow_le_log2 hnumerator
  have hnhigh := lt_two_zpow_log2 numerator
  have hdlow := two_zpow_le_log2 hdenominator
  have hdhigh := lt_two_zpow_log2 denominator
  have hpowerLe := powerLe_iff numerator hdenominator
    ((numerator.log2 : ℤ) - denominator.log2)
  rw [floorLog2]
  -- The difference of the two logarithms is the binade, or one too much.
  split
  · rename_i hpower
    refine ⟨hpowerLe.mp hpower, (div_lt_iff₀ hd).mpr (hnhigh.trans_le ?_)⟩
    calc (2 : ℚ) ^ ((numerator.log2 : ℤ) + 1)
        = 2 ^ ((numerator.log2 : ℤ) - denominator.log2 + 1) * 2 ^ (denominator.log2 : ℤ) := by
          rw [← zpow_add₀ htwo]
          congr 1
          ring
      _ ≤ _ := by gcongr
  · rename_i hpower
    rw [hpowerLe, not_le] at hpower
    refine ⟨(le_div_iff₀ hd).mpr (le_trans ?_ hnlow), by rwa [sub_add_cancel]⟩
    calc (2 : ℚ) ^ ((numerator.log2 : ℤ) - denominator.log2 - 1) * denominator
        ≤ 2 ^ ((numerator.log2 : ℤ) - denominator.log2 - 1) *
            2 ^ ((denominator.log2 : ℤ) + 1) := by gcongr
      _ = _ := by
          rw [← zpow_add₀ htwo]
          congr 1
          ring

theorem floorLog2_eq {e : ℤ} (hdenominator : 0 < denominator)
    (hlow : (2 : ℚ) ^ e ≤ numerator / denominator)
    (hhigh : (numerator / denominator : ℚ) < 2 ^ (e + 1)) :
    floorLog2 numerator denominator = e := by
  have hnumerator : 0 < numerator := by
    refine Nat.pos_of_ne_zero ?_
    rintro rfl
    have hpos : (0 : ℚ) < 2 ^ e := by positivity
    rw [Nat.cast_zero, zero_div] at hlow
    linarith
  obtain ⟨hl, hh⟩ := floorLog2_spec hnumerator hdenominator
  have hle := (zpow_lt_zpow_iff_right₀ (by norm_num : (1 : ℚ) < 2)).mp (hlow.trans_lt hh)
  have hge := (zpow_lt_zpow_iff_right₀ (by norm_num : (1 : ℚ) < 2)).mp (hl.trans_lt hhigh)
  omega

/-- A whole number within half a denominator of the numerator, and even if just half of one away, is
the rounded quotient. -/
theorem roundHalfEven_of_bounds {r : ℕ} (hdenominator : 0 < denominator)
    (hlow : 2 * (denominator * r) ≤ 2 * numerator + denominator)
    (hhigh : 2 * numerator ≤ 2 * (denominator * r) + denominator)
    (htie : 2 * (denominator * r) = 2 * numerator + denominator ∨
      2 * numerator = 2 * (denominator * r) + denominator → r % 2 = 0) :
    roundHalfEven numerator denominator = r := by
  have hdivision := Nat.div_add_mod numerator denominator
  have hmod := Nat.mod_lt numerator hdenominator
  rw [roundHalfEven]
  generalize numerator / denominator = quotient at *
  generalize numerator % denominator = remainder at *
  -- The quotient is `r` or one less, since a whole denominator fits into no smaller gap.
  have hle : quotient ≤ r := by
    by_contra hlt
    have hmul : denominator * (r + 1) ≤ denominator * quotient :=
      Nat.mul_le_mul_left denominator (by omega)
    rw [Nat.mul_add, Nat.mul_one] at hmul
    omega
  have hge : r ≤ quotient + 1 := by
    by_contra hlt
    have hmul : denominator * (quotient + 2) ≤ denominator * r :=
      Nat.mul_le_mul_left denominator (by omega)
    rw [Nat.mul_add] at hmul
    omega
  obtain rfl | rfl : r = quotient ∨ r = quotient + 1 := by omega
  · split
    · rfl
    · split
      · omega
      · have := htie (.inr (by omega))
        omega
  · rw [Nat.mul_add, Nat.mul_one] at hlow hhigh htie
    split
    · omega
    · split
      · rfl
      · have := htie (.inl (by omega))
        omega

theorem roundHalfEven_eq {r : ℕ} (hdenominator : 0 < denominator)
    (hlow : (r : ℚ) - 1 / 2 ≤ numerator / denominator)
    (hhigh : (numerator / denominator : ℚ) ≤ r + 1 / 2)
    (htie : (numerator / denominator : ℚ) = r - 1 / 2 ∨
      (numerator / denominator : ℚ) = r + 1 / 2 → r % 2 = 0) :
    roundHalfEven numerator denominator = r := by
  have hd : (0 : ℚ) < denominator := by exact_mod_cast hdenominator
  apply roundHalfEven_of_bounds hdenominator
  · rw [le_div_iff₀ hd] at hlow
    have hcast : (2 * (denominator * r) : ℚ) ≤ 2 * numerator + denominator := by linarith
    exact_mod_cast hcast
  · rw [div_le_iff₀ hd] at hhigh
    have hcast : (2 * numerator : ℚ) ≤ 2 * (denominator * r) + denominator := by linarith
    exact_mod_cast hcast
  · rintro (h | h)
    · have hcast : (2 * (denominator * r) : ℚ) = 2 * numerator + denominator := by exact_mod_cast h
      exact htie (.inl ((div_eq_iff hd.ne').mpr (by linarith)))
    · have hcast : (2 * numerator : ℚ) = 2 * (denominator * r) + denominator := by exact_mod_cast h
      exact htie (.inr ((div_eq_iff hd.ne').mpr (by linarith)))

theorem scaled_eq_div (e : ℤ) :
    ((numerator * 2 ^ (-e).toNat : ℕ) : ℚ) / (denominator * 2 ^ e.toNat : ℕ) =
      numerator / denominator / 2 ^ e := by
  have hpow := zpow_eq_div 2 (by norm_num) e
  rw [show ((2 : ℚ) = (2 : ℕ)) by norm_num, hpow, Nat.cast_mul, Nat.cast_mul, div_div_div_eq]

end Binary64

/-! ## 2. Rationals of a rounding interval -/

namespace RoundingInterval

/-- The rational lies in the interval, at an end only if the ends belong to it. -/
def Mem (interval : RoundingInterval) (x : ℚ) : Prop :=
  interval.low * 2 ^ interval.unit ≤ x ∧ x ≤ interval.high * 2 ^ interval.unit ∧
    (x = interval.low * 2 ^ interval.unit ∨ x = interval.high * 2 ^ interval.unit →
      interval.closed = true)

end RoundingInterval

namespace Binary64

open RoundingInterval

variable {numerator denominator : ℕ} {d : Dyadic} {x : ℚ}

/-- Whether the magnitude is the least of its binade and steps are half as long below it. -/
def AtPower (d : Dyadic) : Prop := d.mantissa = 2 ^ 52 ∧ leastExponent < d.exponent

instance (d : Dyadic) : Decidable (AtPower d) := inferInstanceAs (Decidable (_ ∧ _))

theorem low_ofDyadic (hpos : 0 < d.mantissa) :
    (AtPower d → ((ofDyadic d).low : ℚ) = 4 * d.mantissa - 1) ∧
      (¬ AtPower d → ((ofDyadic d).low : ℚ) = 4 * d.mantissa - 2) := by
  constructor
  · intro hpower
    have hlow : (ofDyadic d).low = 4 * d.mantissa - 1 := by
      show 4 * d.mantissa - (if AtPower d then 1 else 2) = _
      rw [if_pos hpower]
    rw [hlow, Nat.cast_sub (by omega)]
    push_cast
    rfl
  · intro hpower
    have hlow : (ofDyadic d).low = 4 * d.mantissa - 2 := by
      show 4 * d.mantissa - (if AtPower d then 1 else 2) = _
      rw [if_neg hpower]
    rw [hlow, Nat.cast_sub (by omega)]
    push_cast
    rfl

/-- A rational of the interval, in steps of the magnitude: half a step above it at most, and below
it half a step too, or a quarter if it is at a power of two. -/
theorem mem_ofDyadic (hpos : 0 < d.mantissa) (hmem : (ofDyadic d).Mem x) :
    (d.mantissa - 1 / 2 : ℚ) ≤ x / 2 ^ d.exponent ∧ x / 2 ^ d.exponent ≤ d.mantissa + 1 / 2 ∧
      (x / 2 ^ d.exponent = d.mantissa - 1 / 2 ∨ x / 2 ^ d.exponent = d.mantissa + 1 / 2 →
        d.mantissa % 2 = 0) ∧
      (AtPower d → (d.mantissa - 1 / 4 : ℚ) ≤ x / 2 ^ d.exponent) := by
  obtain ⟨hlow, hhigh, htie⟩ := hmem
  have hpower : (0 : ℚ) < 2 ^ d.exponent := by positivity
  have hunit : (2 : ℚ) ^ (ofDyadic d).unit = 2 ^ d.exponent / 4 := by
    show (2 : ℚ) ^ (d.exponent - 2) = _
    rw [zpow_sub₀ (by norm_num)]
    norm_num
  have hx : x = x / 2 ^ d.exponent * 2 ^ d.exponent := (div_mul_cancel₀ x hpower.ne').symm
  have hhighEnd : ((ofDyadic d).high : ℚ) = 4 * d.mantissa + 2 := by
    show ((4 * d.mantissa + 2 : ℕ) : ℚ) = _
    push_cast
    rfl
  have hclosed : (ofDyadic d).closed = true ↔ d.mantissa % 2 = 0 := decide_eq_true_iff
  rw [hunit, hhighEnd] at hhigh
  rw [hunit, hhighEnd, hclosed] at htie
  rw [hunit] at hlow
  -- From here on everything is measured in steps of the magnitude.
  generalize (2 : ℚ) ^ d.exponent = power at *
  generalize x / power = y at *
  subst hx
  have hle : y ≤ d.mantissa + 1 / 2 := by
    refine le_of_mul_le_mul_right ?_ hpower
    linarith
  by_cases hat : AtPower d
  · rw [(low_ofDyadic hpos).1 hat] at hlow
    have hge : (d.mantissa - 1 / 4 : ℚ) ≤ y := by
      refine le_of_mul_le_mul_right ?_ hpower
      linarith
    exact ⟨by linarith, hle, fun _ => by rw [hat.1]; norm_num, fun _ => hge⟩
  · rw [(low_ofDyadic hpos).2 hat] at hlow htie
    have hge : (d.mantissa - 1 / 2 : ℚ) ≤ y := by
      refine le_of_mul_le_mul_right ?_ hpower
      linarith
    refine ⟨hge, hle, fun hend => htie ?_, fun h => absurd h hat⟩
    rcases hend with rfl | rfl
    · exact .inl (by ring)
    · exact .inr (by ring)

theorem nearestBits_of_exponent {e : ℤ} {m : ℕ} (hdenominator : 0 < denominator)
    (hnumerator : numerator ≠ 0)
    (hexponent : max (floorLog2 numerator denominator - 52) leastExponent = e)
    (hlow : (m : ℚ) - 1 / 2 ≤ numerator / denominator / 2 ^ e)
    (hhigh : (numerator / denominator / 2 ^ e : ℚ) ≤ m + 1 / 2)
    (htie : (numerator / denominator / 2 ^ e : ℚ) = m - 1 / 2 ∨
      (numerator / denominator / 2 ^ e : ℚ) = m + 1 / 2 → m % 2 = 0) :
    nearestBits numerator denominator =
      min ((e - leastExponent).toNat * 2 ^ 52 + m) infinityBits := by
  rw [← scaled_eq_div] at hlow hhigh htie
  have hround := roundHalfEven_eq (Nat.mul_pos hdenominator (by positivity)) hlow hhigh htie
  rw [nearestBits, if_neg hnumerator]
  simp only [hexponent, hround]

theorem chosenExponent_eq (hd : Canonical d) (hdenominator : 0 < denominator)
    (hpos : (0 : ℚ) < numerator / denominator)
    (hhigh : (numerator / denominator : ℚ) < 2 ^ (d.exponent + 53))
    (hlow : leastExponent < d.exponent →
      (2 : ℚ) ^ (d.exponent + 52) ≤ numerator / denominator) :
    max (floorLog2 numerator denominator - 52) leastExponent = d.exponent := by
  have hnumerator : 0 < numerator := by
    refine Nat.pos_of_ne_zero ?_
    rintro rfl
    simp at hpos
  obtain ⟨hl, hh⟩ := floorLog2_spec hnumerator hdenominator
  have hle := (zpow_lt_zpow_iff_right₀ (by norm_num : (1 : ℚ) < 2)).mp (hl.trans_lt hhigh)
  have hge := hd.exponent_ge
  by_cases hleast : leastExponent < d.exponent
  · have hlt := (zpow_lt_zpow_iff_right₀ (by norm_num : (1 : ℚ) < 2)).mp
      ((hlow hleast).trans_lt hh)
    omega
  · omega

theorem magnitudeBits_lt (hd : Canonical d) : magnitudeBits d < infinityBits := by
  have hmantissa := hd.mantissa_lt
  have hexponent := hd.exponent_le
  have hfull := hd.full
  rw [magnitudeBits, infinityBits]
  unfold leastExponent at *
  omega

theorem two_zpow_add (e : ℤ) (n : ℕ) : (2 : ℚ) ^ (e + n) = 2 ^ n * 2 ^ e := by
  rw [zpow_add₀ (by norm_num), zpow_natCast, mul_comm]

/-- Just below a power of two the steps are half as long, and rounding goes up to the power. -/
theorem nearestBits_of_below (hd : Canonical d) (hdenominator : 0 < denominator)
    (hnumerator : numerator ≠ 0) (hat : AtPower d)
    (hlow : (d.mantissa - 1 / 4 : ℚ) ≤ numerator / denominator / 2 ^ d.exponent)
    (hless : (numerator / denominator : ℚ) < 2 ^ (d.exponent + (52 : ℕ))) :
    nearestBits numerator denominator = magnitudeBits d := by
  have hpower : (0 : ℚ) < 2 ^ d.exponent := by positivity
  have hm : (d.mantissa : ℚ) = 2 ^ 52 := by exact_mod_cast hat.1
  rw [hm] at hlow
  have hlog : floorLog2 numerator denominator = d.exponent + (51 : ℕ) := by
    refine floorLog2_eq hdenominator ?_ (by rw [add_assoc]; exact hless)
    rw [two_zpow_add, ← le_div_iff₀ hpower]
    linarith
  -- In steps of the lower binade the rational is twice as many.
  have hsteps : (numerator / denominator / 2 ^ (d.exponent - 1) : ℚ) =
      2 * (numerator / denominator / 2 ^ d.exponent) := by
    rw [zpow_sub_one₀ (by norm_num)]
    field_simp
  have hhigh : (numerator / denominator / 2 ^ d.exponent : ℚ) < 2 ^ 52 := by
    rwa [div_lt_iff₀ hpower, ← two_zpow_add]
  have hround : nearestBits numerator denominator =
      min ((d.exponent - 1 - leastExponent).toNat * 2 ^ 52 + 2 ^ 53) infinityBits := by
    refine nearestBits_of_exponent hdenominator hnumerator ?_ ?_ ?_ fun _ => by norm_num
    · have hleast := hat.2
      omega
    · rw [hsteps]
      push_cast
      linarith
    · rw [hsteps]
      push_cast
      linarith
  have hfinite := magnitudeBits_lt hd
  -- The mantissa carries into the exponent, which makes up for the lower binade.
  rw [hround]
  rw [magnitudeBits] at hfinite ⊢
  obtain ⟨hmantissa, hleast⟩ := hat
  unfold leastExponent at *
  omega

/-- Every rational of the rounding interval of a magnitude has its bits as nearest bits. -/
theorem nearestBits_of_mem (hd : Canonical d) (hpos : 0 < d.mantissa)
    (hdenominator : 0 < denominator)
    (hmem : (ofDyadic d).Mem (numerator / denominator : ℚ)) :
    nearestBits numerator denominator = magnitudeBits d := by
  obtain ⟨hlow, hhigh, htie, hquarter⟩ := mem_ofDyadic hpos hmem
  have hpower : (0 : ℚ) < 2 ^ d.exponent := by positivity
  have hmantissa : (d.mantissa : ℚ) + 1 ≤ 2 ^ 53 := by exact_mod_cast hd.mantissa_lt
  have hone : (1 : ℚ) ≤ d.mantissa := by exact_mod_cast hpos
  have hx : (0 : ℚ) < numerator / denominator := by
    have hy : (0 : ℚ) < numerator / denominator / 2 ^ d.exponent := by linarith
    exact (div_pos_iff_of_pos_right hpower).mp hy
  have hnumerator : numerator ≠ 0 := by
    rintro rfl
    simp at hx
  by_cases hbelow : AtPower d ∧ (numerator / denominator : ℚ) < 2 ^ (d.exponent + (52 : ℕ))
  · exact nearestBits_of_below hd hdenominator hnumerator hbelow.1 (hquarter hbelow.1) hbelow.2
  · have hexponent : max (floorLog2 numerator denominator - 52) leastExponent = d.exponent := by
      refine chosenExponent_eq hd hdenominator hx ?_ fun hleast => ?_
      · rw [show d.exponent + 53 = d.exponent + (53 : ℕ) by norm_num, two_zpow_add,
          ← div_lt_iff₀ hpower]
        linarith
      · rw [show d.exponent + 52 = d.exponent + (52 : ℕ) by norm_num]
        -- At a power of two the rational is not below it; elsewhere half a step is too little.
        by_cases hat : AtPower d
        · exact not_lt.mp fun hless => hbelow ⟨hat, hless⟩
        · have hm : 2 ^ 52 + 1 ≤ d.mantissa := by
            have hfull := hd.full
            have hne : d.mantissa ≠ 2 ^ 52 := fun h => hat ⟨h, hleast⟩
            omega
          have hm' : (2 ^ 52 + 1 : ℚ) ≤ d.mantissa := by exact_mod_cast hm
          rw [two_zpow_add, ← le_div_iff₀ hpower]
          linarith
    have hfinite := magnitudeBits_lt hd
    rw [nearestBits_of_exponent hdenominator hnumerator hexponent hlow hhigh htie]
    rw [magnitudeBits] at hfinite ⊢
    omega

end Binary64

end Lisp.Number
