import Lisp.Proofs.Number.Integers
import Lisp.Proofs.Number.NotANumber
import Lisp.Proofs.Number.Rounding
import Lisp.Value.Order

/-!
# The order of doubles

Each double has a `rank`: the bits of its magnitude as a number, with its sign.  Doubles are ordered
and equal as their ranks are, `compareFloats_eq_some_iff`, except that not-a-number has no place in
the order; so the laws of the order are those of the integers.

Rounding an integer to a double keeps the order, `rank_ofInt64_mono`, though several integers may
round to one double.
-/

namespace Lisp.Number.Binary64

open Float.Model Float.Model.UnpackedFloat

variable {k l : Nat} {m n : Int64} {x y : Float} {o : Ordering}

/-! ## 1. Ranks -/

/-- The bits of the magnitude, with the sign.  Both zeros have the same rank. -/
def rankOf : UnpackedFloat → Int
  | .notANumber => 0
  | .zero _ => 0
  | .infinity s => s.apply (infinityBits : Int)
  | .finite s m e _ => s.apply (magnitudeBits ⟨m, e⟩ : Int)

def rank (x : Float) : Int := rankOf (view x)

theorem rankOf_neg (u : UnpackedFloat) : rankOf u.neg = -rankOf u := by
  have happly : ∀ (s : UnpackedFloat.Sign) (z : Int), (-s).apply z = -s.apply z := by
    intro s z
    cases s
    · exact (neg_neg z).symm
    · rfl
  cases u <;> simp [UnpackedFloat.neg, rankOf, happly]

theorem rank_neg (x : Float) : rank (-x) = -rank x := by
  rw [rank, view_neg, rankOf_neg, rank]

theorem magnitude_of_view {s : UnpackedFloat.Sign} {k : Nat} {e : Int} {hk : 0 < k}
    (h : view x = .finite s k e hk) : magnitude x = ⟨k, e⟩ ∧ IsFinite (pattern x) := by
  have hexponent := toNat_unpackExponent (pattern x)
  have hmantissa := toNat_unpackMantissa (pattern x)
  rw [view, UnpackedFloat.unpack] at h
  split at h
  · split at h <;> cases h
  · rename_i hlast
    have hfinite : IsFinite (pattern x) := by
      intro heq
      apply hlast
      exact BitVec.eq_of_toNat_eq (hexponent.trans heq)
    refine ⟨?_, hfinite⟩
    change (unpackExponent (pattern x)).toNat = x.toBits.toNat / 2 ^ 52 % 2 ^ 11 at hexponent
    change (unpackMantissa (pattern x)).toNat = x.toBits.toNat % 2 ^ 52 at hmantissa
    split at h
    · rename_i hfirst
      rw [hfirst] at hexponent
      split at h
      · cases h
      · cases h
        have hzero : x.toBits.toNat / 2 ^ 52 % 2 ^ 11 = 0 := hexponent.symm
        rw [magnitude, if_pos hzero, hmantissa, hfirst]
        rfl
    · rename_i hfirst
      have hne : (unpackExponent (pattern x)).toNat ≠ 0 := by
        intro heq
        apply hfirst
        exact BitVec.eq_of_toNat_eq heq
      cases h
      rw [magnitude, if_neg (hexponent ▸ hne)]
      congr 1
      · rw [BitVec.toNat_append, ← Nat.shiftLeft_add_eq_or_of_lt (BitVec.isLt _), hmantissa]
        rfl
      · rw [hexponent]
        rw [hexponent] at hne
        show (-1074 : Int) + (_ - 1 : Nat) = (_ : Int) - (1023 + 52)
        omega

theorem canonical_of_view {s : UnpackedFloat.Sign} {k : Nat} {e : Int} {hk : 0 < k}
    (h : view x = .finite s k e hk) : Canonical ⟨k, e⟩ := by
  obtain ⟨hmagnitude, hfinite⟩ := magnitude_of_view h
  rw [← hmagnitude]
  exact canonical_magnitude hfinite

/-! ## 2. The order by ranks -/

theorem magnitudeBits_pos (hk : 0 < k) (e : Int) : 0 < magnitudeBits ⟨k, e⟩ :=
  Nat.add_pos_right _ hk

/-- Of two magnitudes the one with the greater exponent is the greater one, and of two with the same
exponent the one with the greater mantissa; so their bits tell. -/
theorem compare_magnitudes {d d' : Dyadic} (hd : Canonical d) (hd' : Canonical d') :
    (compare d.exponent d'.exponent).then (compare d.mantissa d'.mantissa) =
      compare (magnitudeBits d : Int) (magnitudeBits d' : Int) := by
  have hexponent := hd.exponent_ge
  have hexponent' := hd'.exponent_ge
  have hmantissa := hd.mantissa_lt
  have hmantissa' := hd'.mantissa_lt
  have hfull := hd.full
  have hfull' := hd'.full
  unfold leastExponent at *
  rcases lt_trichotomy d.exponent d'.exponent with hlt | heq | hgt
  · rw [compare_lt_iff_lt.mpr hlt]
    refine (compare_lt_iff_lt.mpr ?_).symm
    unfold magnitudeBits leastExponent
    omega
  · rw [compare_eq_iff_eq.mpr heq]
    have hbits : ∀ d d' : Dyadic, d.exponent = d'.exponent → d.mantissa < d'.mantissa →
        (magnitudeBits d : Int) < magnitudeBits d' := by
      intro d d' hsame hless
      unfold magnitudeBits
      omega
    rcases lt_trichotomy d.mantissa d'.mantissa with hlt | hsame | hgt
    · rw [compare_lt_iff_lt.mpr hlt]
      exact (compare_lt_iff_lt.mpr (hbits d d' heq hlt)).symm
    · rw [compare_eq_iff_eq.mpr hsame, magnitudeBits, magnitudeBits, heq, hsame]
      exact (compare_eq_iff_eq.mpr rfl).symm
    · rw [compare_gt_iff_gt.mpr hgt]
      exact (compare_gt_iff_gt.mpr (hbits d' d heq.symm hgt)).symm
  · rw [compare_gt_iff_gt.mpr hgt]
    refine (compare_gt_iff_gt.mpr ?_).symm
    unfold magnitudeBits leastExponent
    omega

theorem compare_neg_neg (i j : Int) : compare (-i) (-j) = (compare i j).swap := by
  rcases lt_trichotomy i j with hlt | heq | hgt
  · rw [compare_lt_iff_lt.mpr hlt]
    exact compare_gt_iff_gt.mpr (by omega)
  · rw [compare_eq_iff_eq.mpr heq]
    exact compare_eq_iff_eq.mpr (by omega)
  · rw [compare_gt_iff_gt.mpr hgt]
    exact compare_lt_iff_lt.mpr (by omega)

theorem compare_finite {s t : UnpackedFloat.Sign} {e f : Int} {hk : 0 < k} {hl : 0 < l}
    (hd : Canonical ⟨k, e⟩) (hd' : Canonical ⟨l, f⟩) :
    some (compare (rankOf (.finite s k e hk)) (rankOf (.finite t l f hl))) =
      UnpackedFloat.compare (.finite s k e hk) (.finite t l f hl) := by
  have hpos := magnitudeBits_pos hk e
  have hpos' := magnitudeBits_pos hl f
  have hcompare := compare_magnitudes hd hd'
  dsimp only at hcompare
  cases s <;> cases t
  all_goals
    simp only [rankOf, UnpackedFloat.Sign.apply, UnpackedFloat.compare, Option.some.injEq, hcompare,
      compare_neg_neg, compare_lt_iff_lt, compare_gt_iff_gt]
  · omega
  · omega

def sideOf : UnpackedFloat.Sign → Ordering
  | .positive => .gt
  | .negative => .lt

theorem compare_apply_of_lt (s t : UnpackedFloat.Sign) {i j : Int} (hj : 0 ≤ j) (h : j < i) :
    compare (s.apply i) (t.apply j) = sideOf s ∧
      compare (t.apply j) (s.apply i) = (sideOf s).swap := by
  have hside : compare (s.apply i) (t.apply j) = sideOf s := by
    cases s with
    | positive =>
      refine compare_gt_iff_gt.mpr ?_
      cases t <;> simp only [UnpackedFloat.Sign.apply] <;> omega
    | negative =>
      refine compare_lt_iff_lt.mpr ?_
      cases t <;> simp only [UnpackedFloat.Sign.apply] <;> omega
  have hswap : compare (t.apply j) (s.apply i) = (compare (s.apply i) (t.apply j)).swap :=
    Std.OrientedCmp.eq_swap
  exact ⟨hside, hswap.trans (congrArg Ordering.swap hside)⟩

/-- Doubles that are numbers are ordered as their ranks.  Of two kinds the one has greater
magnitudes than the other, whose sign then makes no difference. -/
theorem compare_views (hx : x.isNaN = false) (hy : y.isNaN = false) :
    some (compare (rank x) (rank y)) = UnpackedFloat.compare (view x) (view y) := by
  rw [← Bool.not_eq_true, isNaN_iff] at hx hy
  have hinfinity : (0 : Int) < infinityBits := by decide
  unfold rank
  cases hu : view x with
  | notANumber => exact absurd hu hx
  | infinity s =>
    cases hv : view y with
    | notANumber => exact absurd hv hy
    | infinity t => cases s <;> cases t <;> rfl
    | zero t =>
      have hside := (compare_apply_of_lt s .positive le_rfl hinfinity).1
      exact (congrArg some hside).trans (by cases s <;> rfl)
    | finite t l f hl =>
      have hless := Int.ofNat_lt.mpr (magnitudeBits_lt (canonical_of_view hv))
      have hside := (compare_apply_of_lt s t (Int.natCast_nonneg _) hless).1
      exact (congrArg some hside).trans (by cases s <;> rfl)
  | zero s =>
    cases hv : view y with
    | notANumber => exact absurd hv hy
    | infinity t =>
      have hside := (compare_apply_of_lt t .positive le_rfl hinfinity).2
      exact (congrArg some hside).trans (by cases t <;> rfl)
    | zero t => rfl
    | finite t l f hl =>
      have hpos := Int.natCast_pos.mpr (magnitudeBits_pos hl f)
      have hside := (compare_apply_of_lt t .positive le_rfl hpos).2
      exact (congrArg some hside).trans (by cases t <;> rfl)
  | finite s k e hk =>
    cases hv : view y with
    | notANumber => exact absurd hv hy
    | infinity t =>
      have hless := Int.ofNat_lt.mpr (magnitudeBits_lt (canonical_of_view hu))
      have hside := (compare_apply_of_lt t s (Int.natCast_nonneg _) hless).2
      exact (congrArg some hside).trans (by cases t <;> rfl)
    | zero t =>
      have hpos := Int.natCast_pos.mpr (magnitudeBits_pos hk e)
      have hside := (compare_apply_of_lt s .positive le_rfl hpos).1
      exact (congrArg some hside).trans (by cases s <;> rfl)
    | finite t l f hl => exact compare_finite (canonical_of_view hu) (canonical_of_view hv)

theorem lt_iff : x < y ↔ UnpackedFloat.compare (view x) (view y) = some .lt := by
  show decide ((UnpackedFloat.compare (view x) (view y) == some .lt) = true) = true ↔ _
  rw [decide_eq_true_iff, beq_iff_eq]

theorem beq_iff_compare : (x == y) = true ↔ UnpackedFloat.compare (view x) (view y) = some .eq := by
  show (UnpackedFloat.compare (view x) (view y) == some .eq) = true ↔ _
  exact beq_iff_eq

theorem compare_notANumber (u : UnpackedFloat) : UnpackedFloat.compare u .notANumber = none := by
  cases u <;> rfl

theorem notANumber_compare (u : UnpackedFloat) : UnpackedFloat.compare .notANumber u = none := rfl

theorem compareFloats_eq_some_iff :
    compareFloats x y = some o ↔
      x.isNaN = false ∧ y.isNaN = false ∧ compare (rank x) (rank y) = o := by
  simp only [compareFloats, lt_iff, beq_iff_compare]
  by_cases hx : x.isNaN = true
  · rw [isNaN_iff.mp hx, notANumber_compare, compare_notANumber]
    refine iff_of_false nofun fun h => ?_
    exact absurd hx (Bool.eq_false_iff.mp h.1)
  · by_cases hy : y.isNaN = true
    · rw [isNaN_iff.mp hy, notANumber_compare, compare_notANumber]
      refine iff_of_false nofun fun h => ?_
      exact absurd hy (Bool.eq_false_iff.mp h.2.1)
    · rw [Bool.not_eq_true] at hx hy
      have hswap : compare (rank y) (rank x) = (compare (rank x) (rank y)).swap :=
        Std.OrientedCmp.eq_swap
      rw [← compare_views hx hy, ← compare_views hy hx, hswap]
      cases compare (rank x) (rank y) <;> simp only [hx, hy, true_and, Ordering.swap] <;> simp

theorem beq_iff_rank (hx : x.isNaN = false) (hy : y.isNaN = false) :
    (x == y) = true ↔ rank x = rank y := by
  rw [beq_iff_compare, ← compare_views hx hy, Option.some.injEq, compare_eq_iff_eq]

/-! ## 3. Integers as doubles -/

theorem roundHalfEven_mono (h : k ≤ l) (denominator : Nat) :
    roundHalfEven k denominator ≤ roundHalfEven l denominator := by
  have hk := Nat.div_add_mod k denominator
  have hl := Nat.div_add_mod l denominator
  have hle : k / denominator ≤ l / denominator := Nat.div_le_div_right h
  unfold roundHalfEven
  dsimp only
  generalize k / denominator = q at *
  generalize l / denominator = r at *
  generalize k % denominator = s at *
  generalize l % denominator = t at *
  rcases Nat.lt_or_eq_of_le hle with hless | rfl
  · split_ifs <;> omega
  · split_ifs <;> omega

theorem roundHalfEven_mul (c : Nat) {d : Nat} (hd : 0 < d) : roundHalfEven (c * d) d = c := by
  rw [roundHalfEven, Nat.mul_div_cancel c hd, Nat.mul_mod_left]
  exact if_pos hd

/-- A natural number as a double: the power of two of its first digit, and its digits rounded to 53,
which may carry into a digit more. -/
theorem nearestBits_natural (hk : 0 < k) :
    ∃ mantissa, mantissa = roundHalfEven (k * 2 ^ (52 - k.log2)) (2 ^ (k.log2 - 52)) ∧
      2 ^ 52 ≤ mantissa ∧ mantissa ≤ 2 ^ 53 ∧
      nearestBits k 1 = min ((k.log2 + 1022) * 2 ^ 52 + mantissa) infinityBits := by
  have hunit : 0 < 2 ^ (k.log2 - 52) := Nat.two_pow_pos _
  have hlow := Nat.log2_self_le (n := k) (by omega)
  have hhigh := Nat.lt_log2_self (n := k)
  refine ⟨_, rfl, ?_, ?_, ?_⟩
  · calc 2 ^ 52 = roundHalfEven (2 ^ 52 * 2 ^ (k.log2 - 52)) (2 ^ (k.log2 - 52)) :=
          (roundHalfEven_mul _ hunit).symm
      _ ≤ _ := by
        refine roundHalfEven_mono ?_ _
        calc 2 ^ 52 * 2 ^ (k.log2 - 52) = 2 ^ k.log2 * 2 ^ (52 - k.log2) := by
              rw [← Nat.pow_add, ← Nat.pow_add]
              congr 1
              omega
          _ ≤ k * 2 ^ (52 - k.log2) := Nat.mul_le_mul_right _ hlow
  · calc roundHalfEven (k * 2 ^ (52 - k.log2)) (2 ^ (k.log2 - 52))
        ≤ roundHalfEven (2 ^ 53 * 2 ^ (k.log2 - 52)) (2 ^ (k.log2 - 52)) := by
          refine roundHalfEven_mono ?_ _
          calc k * 2 ^ (52 - k.log2) ≤ 2 ^ (k.log2 + 1) * 2 ^ (52 - k.log2) :=
                Nat.mul_le_mul_right _ hhigh.le
            _ = 2 ^ 53 * 2 ^ (k.log2 - 52) := by
              rw [← Nat.pow_add, ← Nat.pow_add]
              congr 1
              omega
      _ = 2 ^ 53 := roundHalfEven_mul _ hunit
  · have hexponent : max (floorLog2 k 1 - 52) leastExponent = (k.log2 : Int) - 52 := by
      rw [floorLog2_one hk]
      show max ((k.log2 : Int) - 52) (-1074) = _
      omega
    have hdown : ((k.log2 : Int) - 52).toNat = k.log2 - 52 := by omega
    have hup : (-((k.log2 : Int) - 52)).toNat = 52 - k.log2 := by omega
    have hbiased : ((k.log2 : Int) - 52 - leastExponent).toNat = k.log2 + 1022 := by
      show ((k.log2 : Int) - 52 - -1074).toNat = _
      omega
    rw [nearestBits, if_neg (by omega), hexponent]
    simp only [hdown, hup, hbiased, Nat.one_mul]

theorem nearestBits_mono (h : k ≤ l) : nearestBits k 1 ≤ nearestBits l 1 := by
  rcases Nat.eq_zero_or_pos k with rfl | hk
  · exact Nat.zero_le _
  · obtain ⟨m, hm, -, hmhigh, hmbits⟩ := nearestBits_natural hk
    obtain ⟨n, hn, hnlow, -, hnbits⟩ := nearestBits_natural (hk.trans_le h)
    have hlog : k.log2 ≤ l.log2 :=
      (Nat.le_log2 (by omega)).mpr ((Nat.log2_self_le (by omega)).trans h)
    rw [hmbits, hnbits]
    refine min_le_min_right _ ?_
    rcases Nat.lt_or_eq_of_le hlog with hless | hsame
    · omega
    · -- In one binade the numbers are rounded in the same units.
      rw [hsame] at hm ⊢
      have hmn : m ≤ n := by
        rw [hm, hn]
        exact roundHalfEven_mono (Nat.mul_le_mul_right _ h) _
      omega

theorem rank_ofBits (hlt : k < infinityBits) : rank (Float.ofBits (UInt64.ofNat k)) = k := by
  rcases Nat.eq_zero_or_pos k with rfl | hpos
  · rfl
  · obtain ⟨m, e, hm, hview⟩ := view_ofBits hpos hlt
    have hbits := magnitudeBits_magnitude (Float.ofBits (UInt64.ofNat k))
    rw [(magnitude_of_view hview).1, (pattern_ofBits_of_lt hlt).1] at hbits
    rw [rank, hview]
    show (magnitudeBits ⟨m, e⟩ : Int) = k
    rw [hbits, Nat.mod_eq_of_lt (hlt.trans (by decide))]

theorem rank_ofInt64 (n : Int64) :
    rank (ofInt64 n) =
      if n.toInt < 0 then -(nearestBits n.toInt.natAbs 1 : Int)
      else nearestBits n.toInt.natAbs 1 := by
  have hfinite : nearestBits n.toInt.natAbs 1 < infinityBits := by
    have hlow := n.le_toInt
    have hhigh := n.toInt_lt
    calc nearestBits n.toInt.natAbs 1 ≤ nearestBits (2 ^ 63) 1 := nearestBits_mono (by omega)
      _ < infinityBits := by decide
  split
  · rename_i hneg
    rw [ofInt64_of_neg hneg, rank_neg, rank_ofBits hfinite]
  · rename_i hnonneg
    rw [ofInt64_of_nonneg (not_lt.mp hnonneg), rank_ofBits hfinite]

theorem isNaN_ofInt64 (n : Int64) : (ofInt64 n).isNaN = false := isNaN_nearest _ _ _

theorem rank_ofInt64_mono (h : m.toInt ≤ n.toInt) : rank (ofInt64 m) ≤ rank (ofInt64 n) := by
  rw [rank_ofInt64, rank_ofInt64]
  split
  · split
    · have hle := nearestBits_mono (show n.toInt.natAbs ≤ m.toInt.natAbs by omega)
      omega
    · omega
  · have hle := nearestBits_mono (show m.toInt.natAbs ≤ n.toInt.natAbs by omega)
    rw [if_neg (by omega)]
    omega

end Lisp.Number.Binary64
