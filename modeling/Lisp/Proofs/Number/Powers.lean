import Lisp.Number.Literal
import Lisp.Proofs.Number.Magnitudes

/-!
# Powers of ten in doubles

The power of ten of an exponent is formed by repeated squaring, and each product on the way is
rounded.  So the power lies between those of a number slightly less than ten and of one slightly
greater, `between_power`, and these are close enough to tell where it overflows and where its
reciprocal vanishes: `powerOfTen_spec`.
-/

namespace Lisp.Number.Literal

open Binary64 Float.Model

/-- Ten, and slightly less, as rounding every product down would have it. -/
def lowTen : ℚ := (1 - roundingError) * 10

/-- Ten, and slightly more, as rounding every product up would have it. -/
def highTen : ℚ := (1 + roundingError) * 10

theorem roundingError_scale_ne_zero : 1 - roundingError ≠ 0 ∧ 1 + roundingError ≠ 0 := by
  constructor <;> norm_num [roundingError]

theorem scaled_mul_pow {scale : ℚ} (hscale : scale ≠ 0) (base : ℚ) (i j : ℕ) :
    scale * (base ^ i * (base ^ j / scale)) = base ^ (i + j) := by
  rw [pow_add]
  field_simp

theorem scaled_sq_pow {scale : ℚ} (hscale : scale ≠ 0) (base : ℚ) (j : ℕ) :
    scale * (base ^ j / scale * (base ^ j / scale)) = base ^ (2 * j) / scale := by
  rw [two_mul, pow_add]
  field_simp

/-- The power is the product of the squares that count, each rounded, and so are the products. -/
theorem between_powerLoop {fuel e i j : ℕ} {result power : Float} (he : e < 2 ^ fuel)
    (hresult : Between (lowTen ^ i) (highTen ^ i) result)
    (hpower : Between (lowTen ^ j / (1 - roundingError)) (highTen ^ j / (1 + roundingError)) power) :
    Between (lowTen ^ (i + j * e)) (highTen ^ (i + j * e)) (powerLoop fuel result power e) := by
  obtain ⟨hlow, hhigh⟩ := roundingError_scale_ne_zero
  have hten : ∀ i, 0 ≤ lowTen ^ i := fun i => pow_nonneg (by norm_num [lowTen, roundingError]) i
  have hscaled : ∀ i, 0 ≤ lowTen ^ i / (1 - roundingError) := fun i =>
    div_nonneg (hten i) (by norm_num [roundingError])
  induction fuel generalizing result power e i j with
  | zero =>
    obtain rfl : e = 0 := by omega
    exact hresult
  | succ fuel ih =>
    have hnext : Between (lowTen ^ (i + j * (e % 2))) (highTen ^ (i + j * (e % 2)))
        (if e % 2 = 1 then result * power else result) := by
      split
      · rename_i hodd
        have hproduct := hresult.mul hpower (hten i) (hscaled j)
        rw [scaled_mul_pow hlow, scaled_mul_pow hhigh] at hproduct
        rwa [hodd, mul_one]
      · rename_i heven
        rwa [show e % 2 = 0 by omega, mul_zero, add_zero]
    have hsquare := hpower.mul hpower (hscaled j) (hscaled j)
    rw [scaled_sq_pow hlow, scaled_sq_pow hhigh] at hsquare
    have hsplit : i + j * e = i + j * (e % 2) + 2 * j * (e / 2) := by
      conv_lhs => rw [← Nat.mod_add_div e 2]
      ring
    rw [powerLoop]
    split
    · rename_i hlast
      rw [hsplit, hlast, mul_zero, add_zero]
      exact hnext
    · rw [hsplit]
      exact ih (by omega) hnext hsquare

theorem between_power {e : ℕ} (he : e < 2 ^ 32) :
    Between (lowTen ^ e) (highTen ^ e) (powerLoop 32 1.0 10.0 e) := by
  obtain ⟨hlow, hhigh⟩ := roundingError_scale_ne_zero
  have hpower : Between (lowTen ^ 1 / (1 - roundingError)) (highTen ^ 1 / (1 + roundingError)) 10.0 := by
    rw [pow_one, pow_one, lowTen, highTen, mul_div_cancel_left₀ _ hlow,
      mul_div_cancel_left₀ _ hhigh]
    exact between_ten
  have hresult : Between (lowTen ^ 0) (highTen ^ 0) 1.0 := by
    rw [pow_zero, pow_zero]
    exact between_one
  have hloop := between_powerLoop he hresult hpower
  rwa [zero_add, one_mul] at hloop

/-- The first power of ten that overflows is so much greater than the last double, and the one before
it so much less, that rounding does not matter. -/
theorem ten_pow_bounds : 2 ^ 1024 ≤ lowTen ^ 309 ∧ highTen ^ 308 < 2 ^ 1024 := by
  have hlow : lowTen = 45035996273704950 / 2 ^ 52 := by norm_num [lowTen, roundingError]
  have hhigh : highTen = 45035996273704970 / 2 ^ 52 := by norm_num [highTen, roundingError]
  have hover : 2 ^ 1024 * (2 ^ 52) ^ 309 ≤ 45035996273704950 ^ 309 := by decide +kernel
  have hunder : 45035996273704970 ^ 308 < 2 ^ 1024 * (2 ^ 52) ^ 308 := by decide +kernel
  constructor
  · rw [hlow, div_pow, le_div_iff₀ (by positivity)]
    exact_mod_cast hover
  · rw [hhigh, div_pow, div_lt_iff₀ (by positivity)]
    exact_mod_cast hunder

theorem isInf_power_iff {e : ℕ} (he : e < 2 ^ 32) :
    (powerLoop 32 1.0 10.0 e).isInf = true ↔ 309 ≤ e := by
  obtain ⟨hover, hunder⟩ := ten_pow_bounds
  have hone : 1 ≤ lowTen := by norm_num [lowTen, roundingError]
  have hone' : 1 ≤ highTen := by norm_num [highTen, roundingError]
  have hle : lowTen ≤ highTen := by norm_num [lowTen, highTen, roundingError]
  have habove : 309 ≤ e → 2 ^ 1024 ≤ lowTen ^ e := fun h =>
    hover.trans (pow_le_pow_right₀ hone h)
  have hbelow : e < 309 → highTen ^ e < 2 ^ 1024 := fun h =>
    (pow_le_pow_right₀ hone' (Nat.le_of_lt_succ h)).trans_lt hunder
  rw [(between_power he).isInf_iff fun hlow => hbelow (not_le.mp fun h => (habove h).not_gt hlow)]
  refine ⟨fun h => not_lt.mp fun hless => ?_, habove⟩
  exact (h.trans (pow_le_pow_left₀ (by linarith) hle e)).not_gt (hbelow hless)

/-- A power of ten is infinite from the exponent 309 on, zero from -309 down, and otherwise neither;
it is a number throughout. -/
theorem powerOfTen_spec {e : ℤ} (he : e.natAbs < 2 ^ 32) :
    (powerOfTen e).isNaN = false ∧ ((powerOfTen e).isInf = true ↔ 309 ≤ e) ∧
      (IsZero (powerOfTen e) ↔ e ≤ -309) := by
  have hpower := between_power he
  have hinf := isInf_power_iff he
  simp only [powerOfTen]
  split
  · rw [isZero_iff, ← Bool.not_eq_true, Binary64.isNaN_iff, Binary64.isInf_iff]
    rcases hpower.view_reciprocal with ⟨hover, hview⟩ | ⟨hunder, m, k, hm, hview⟩
    · have hlarge := hinf.mp hover
      rw [hview]
      refine ⟨UnpackedFloat.noConfusion, iff_of_false ?_ (by omega), iff_of_true ⟨_, rfl⟩ (by omega)⟩
      rintro ⟨s, hs⟩
      cases hs
    · have hsmall : ¬ 309 ≤ e.natAbs := fun h => by
        rw [hinf.mpr h] at hunder
        cases hunder
      rw [hview]
      refine ⟨UnpackedFloat.noConfusion, iff_of_false ?_ (by omega), iff_of_false ?_ (by omega)⟩
      · rintro ⟨s, hs⟩
        cases hs
      · rintro ⟨s, hs⟩
        cases hs
  · exact ⟨hpower.isNaN, hinf.trans (by omega), iff_of_false hpower.not_isZero (by omega)⟩

end Lisp.Number.Literal
