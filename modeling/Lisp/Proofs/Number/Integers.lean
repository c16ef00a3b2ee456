import Lisp.Proofs.Number.Doubles

/-!
# Integers as doubles

The double nearest to an integer is the integer itself, as long as 53 binary digits hold it.  So up to
that magnitude two integers are equal to one double only if they are the same.
-/

namespace Lisp.Number.Binary64

open Float.Model Float.Model.UnpackedFloat

variable {k l : Nat} {m n : Int64}

/-! ## 1. Bits of an integer -/

theorem floorLog2_one (hk : 0 < k) : floorLog2 k 1 = k.log2 := by
  have hestimate : (k.log2 : Int) - ((1 : Nat).log2 : Int) = k.log2 := by
    rw [show (1 : Nat).log2 = 0 by decide]
    exact Int.sub_zero _
  have hle : powerLe k.log2 k 1 = true := by
    have hpower := Nat.log2_self_le (n := k) (by omega)
    rw [powerLe, decide_eq_true_eq]
    show 1 * 2 ^ k.log2 ≤ k * 2 ^ (-(k.log2 : Int)).toNat
    rw [show (-(k.log2 : Int)).toNat = 0 by omega]
    omega
  rw [floorLog2, hestimate]
  exact if_pos hle

theorem roundHalfEven_one (k : Nat) : roundHalfEven k 1 = k := by
  simp [roundHalfEven, Nat.mod_one]

theorem nearestBits_one (hk : 0 < k) (hlt : k < 2 ^ 53) :
    nearestBits k 1 = (k.log2 + 1022) * 2 ^ 52 + k * 2 ^ (52 - k.log2) ∧
      2 ^ 52 ≤ k * 2 ^ (52 - k.log2) ∧ k * 2 ^ (52 - k.log2) < 2 ^ 53 := by
  have hlog : k.log2 < 53 := (Nat.log2_lt (by omega)).mpr hlt
  have hlow := Nat.log2_self_le (n := k) (by omega)
  have hhigh := Nat.lt_log2_self (n := k)
  have hge : 2 ^ 52 ≤ k * 2 ^ (52 - k.log2) := by
    calc 2 ^ 52 = 2 ^ k.log2 * 2 ^ (52 - k.log2) := by
          rw [← Nat.pow_add, Nat.add_sub_cancel' (by omega)]
      _ ≤ k * 2 ^ (52 - k.log2) := Nat.mul_le_mul_right _ hlow
  have hless : k * 2 ^ (52 - k.log2) < 2 ^ 53 := by
    calc k * 2 ^ (52 - k.log2) < 2 ^ (k.log2 + 1) * 2 ^ (52 - k.log2) :=
          Nat.mul_lt_mul_of_pos_right hhigh (Nat.two_pow_pos _)
      _ = 2 ^ 53 := by rw [← Nat.pow_add, show k.log2 + 1 + (52 - k.log2) = 53 by omega]
  refine ⟨?_, hge, hless⟩
  have hexponent : max (floorLog2 k 1 - 52) leastExponent = (k.log2 : Int) - 52 := by
    rw [floorLog2_one hk]
    show max ((k.log2 : Int) - 52) (-1074) = _
    omega
  rw [nearestBits, if_neg (by omega), hexponent]
  have hdown : ((k.log2 : Int) - 52).toNat = 0 := by omega
  have hup : (-((k.log2 : Int) - 52)).toNat = 52 - k.log2 := by omega
  have hbiased : ((k.log2 : Int) - 52 - leastExponent).toNat = k.log2 + 1022 := by
    show ((k.log2 : Int) - 52 - -1074).toNat = _
    omega
  simp only [hdown, hup, hbiased, pow_zero, mul_one, roundHalfEven_one]
  refine Nat.min_eq_left ?_
  show _ ≤ 0x7ff0000000000000
  omega

/-- Up to the first natural number of 54 digits, greater numbers have greater bits. -/
theorem nearestBits_one_strictMonoOn : StrictMonoOn (nearestBits · 1) (Set.Iic (2 ^ 53)) := by
  intro k hk l hl hkl
  show nearestBits k 1 < nearestBits l 1
  have hbits : ∀ k, 0 < k → k < 2 ^ 53 →
      (k.log2 + 1023) * 2 ^ 52 ≤ nearestBits k 1 ∧
        nearestBits k 1 < (k.log2 + 1024) * 2 ^ 52 ∧ k.log2 < 53 := by
    intro k hpos hlt
    obtain ⟨hbits, hge, hless⟩ := nearestBits_one hpos hlt
    have hlog : k.log2 < 53 := (Nat.log2_lt (by omega)).mpr hlt
    omega
  rcases Nat.eq_zero_or_pos k with rfl | hpos
  · have hzero : nearestBits 0 1 = 0 := by decide
    rcases Nat.lt_or_eq_of_le hl with hlt | rfl
    · have hl := hbits l hkl hlt
      omega
    · decide
  · have hk := hbits k hpos (Nat.lt_of_lt_of_le hkl hl)
    rcases Nat.lt_or_eq_of_le hl with hlt | rfl
    · have hl := hbits l (by omega) hlt
      rcases Nat.lt_or_ge k.log2 l.log2 with hlog | hlog
      · omega
      · -- In one binade the shift is the same.
        have hle : k.log2 ≤ l.log2 := (Nat.le_log2 (by omega)).mpr
          ((Nat.log2_self_le (by omega)).trans (Nat.le_of_lt hkl))
        have hsame : k.log2 = l.log2 := Nat.le_antisymm hle hlog
        rw [(nearestBits_one hpos (by omega)).1, (nearestBits_one (by omega) hlt).1, hsame]
        exact Nat.add_lt_add_left (Nat.mul_lt_mul_of_pos_right hkl (Nat.two_pow_pos _)) _
    · have htop : nearestBits (2 ^ 53) 1 = 1076 * 2 ^ 52 := by decide
      omega

/-! ## 2. Signs of an integer -/

theorem pattern_ofBits_of_lt (hlt : k < infinityBits) :
    (pattern (Float.ofBits (UInt64.ofNat k))).toNat = k ∧
      IsFinite (pattern (Float.ofBits (UInt64.ofNat k))) := by
  have hbits : (UInt64.ofNat k).toBitVec.toNat = k :=
    UInt64.toNat_ofNat_of_lt' (hlt.trans (by decide))
  replace hlt : k < 0x7ff0000000000000 := hlt
  have hfinite : IsFinite (UInt64.ofNat k).toBitVec := by
    rw [IsFinite, hbits]
    omega
  rw [pattern_ofBits hfinite.valid]
  exact ⟨hbits, hfinite⟩

theorem view_ofBits (hpos : 0 < k) (hlt : k < infinityBits) :
    ∃ m e hm, view (Float.ofBits (UInt64.ofNat k)) = .finite .positive m e hm := by
  obtain ⟨hbits, hfinite⟩ := pattern_ofBits_of_lt hlt
  replace hlt : k < 0x7ff0000000000000 := hlt
  have hsign : unpackSign (pattern (Float.ofBits (UInt64.ofNat k))) = 0#1 := by
    refine BitVec.eq_of_toNat_eq ?_
    rw [toNat_unpackSign, hbits]
    show k / 2 ^ 63 = 0
    omega
  have hpositive : Sign.ofBitVec 0#1 = .positive := rfl
  rw [view, UnpackedFloat.unpack, if_neg hfinite.exponent_ne, hsign, hpositive]
  split
  · rename_i hfirst
    have hexponent := toNat_unpackExponent (pattern (Float.ofBits (UInt64.ofNat k)))
    have hmantissa := toNat_unpackMantissa (pattern (Float.ofBits (UInt64.ofNat k)))
    rw [hfirst, hbits] at hexponent
    rw [hbits] at hmantissa
    replace hexponent : 0 = k / 2 ^ 52 % 2 ^ 11 := hexponent
    split
    · rename_i hnone
      -- Both fields would be zero, and so would the bits.
      rw [hnone] at hmantissa
      replace hmantissa : 0 = k % 2 ^ 52 := hmantissa
      omega
    · rename_i hsome
      exact ⟨_, _, Nat.pos_of_ne_zero fun hnone => hsome (BitVec.eq_of_toNat_eq hnone), rfl⟩
  · refine ⟨_, _, ?_, rfl⟩
    rw [BitVec.toNat_append, ← Nat.shiftLeft_add_eq_or_of_lt (BitVec.isLt _)]
    exact Nat.add_pos_left (by decide) _

theorem nearestBits_one_bounds (hpos : 0 < k) (hk : k ≤ 2 ^ 53) :
    0 < nearestBits k 1 ∧ nearestBits k 1 < infinityBits := by
  have hzero : nearestBits 0 1 = 0 := by decide
  have htop : nearestBits (2 ^ 53) 1 < infinityBits := by decide
  refine ⟨hzero ▸ nearestBits_one_strictMonoOn (Nat.zero_le _) hk hpos, ?_⟩
  exact (nearestBits_one_strictMonoOn.monotoneOn hk (Set.mem_Iic.mpr le_rfl) hk).trans_lt htop

theorem ofBits_injOn (hk : k < infinityBits) (hl : l < infinityBits)
    (h : Float.ofBits (UInt64.ofNat k) = Float.ofBits (UInt64.ofNat l)) : k = l := by
  rw [← (pattern_ofBits_of_lt hk).1, ← (pattern_ofBits_of_lt hl).1, h]

theorem ofInt64_of_nonneg (h : 0 ≤ n.toInt) :
    ofInt64 n = Float.ofBits (UInt64.ofNat (nearestBits n.toInt.natAbs 1)) := by
  rw [ofInt64, nearest, decide_eq_false (Int.not_lt.mpr h)]
  rfl

theorem ofInt64_of_neg (h : n.toInt < 0) :
    ofInt64 n = -Float.ofBits (UInt64.ofNat (nearestBits n.toInt.natAbs 1)) := by
  rw [ofInt64, nearest, decide_eq_true h]
  rfl

theorem view_ofInt64 (hn : n.toInt.natAbs ≤ 2 ^ 53) :
    n.toInt = 0 ∧ view (ofInt64 n) = .zero .positive ∨
    0 < n.toInt ∧ (∃ m e hm, view (ofInt64 n) = .finite .positive m e hm) ∨
    n.toInt < 0 ∧ ∃ m e hm, view (ofInt64 n) = .finite .negative m e hm := by
  rcases Int.lt_trichotomy n.toInt 0 with hneg | hzero | hpos
  · right; right
    obtain ⟨hbits, hfinite⟩ := nearestBits_one_bounds (Int.natAbs_pos.mpr hneg.ne) hn
    obtain ⟨m, e, hm, hview⟩ := view_ofBits hbits hfinite
    refine ⟨hneg, m, e, hm, ?_⟩
    rw [ofInt64_of_neg hneg, view_neg, hview]
    rfl
  · left
    refine ⟨hzero, ?_⟩
    rw [ofInt64_of_nonneg hzero.ge, hzero]
    rfl
  · right; left
    obtain ⟨hbits, hfinite⟩ := nearestBits_one_bounds (Int.natAbs_pos.mpr hpos.ne') hn
    refine ⟨hpos, ?_⟩
    rw [ofInt64_of_nonneg hpos.le]
    exact view_ofBits hbits hfinite

theorem neg_injective : Function.Injective fun x : Float => -x := by
  intro x y h
  have hview : (view x).neg = (view y).neg := by
    rw [← view_neg, ← view_neg]
    exact congrArg view h
  refine eq_of_view ?_
  have hneg : Function.Involutive UnpackedFloat.neg := by
    intro u
    cases u with
    | notANumber => rfl
    | infinity s | zero s | finite s => cases s <;> rfl
  exact hneg.injective hview

/-- Integers of at most 53 digits that are equal as doubles are the same. -/
theorem eq_of_ofInt64_beq (hm : m.toInt.natAbs ≤ 2 ^ 53) (hn : n.toInt.natAbs ≤ 2 ^ 53)
    (h : (ofInt64 m == ofInt64 n) = true) : m = n := by
  have hmagnitude : ∀ k l : Nat, k ≤ 2 ^ 53 → l ≤ 2 ^ 53 → 0 < k → 0 < l →
      Float.ofBits (UInt64.ofNat (nearestBits k 1)) =
        Float.ofBits (UInt64.ofNat (nearestBits l 1)) → k = l := by
    intro k l hk hl hkpos hlpos heq
    exact nearestBits_one_strictMonoOn.injOn hk hl
      (ofBits_injOn (nearestBits_one_bounds hkpos hk).2 (nearestBits_one_bounds hlpos hl).2 heq)
  rw [← Int64.toInt_inj]
  obtain ⟨-, heq | ⟨hzero, hzero'⟩⟩ := beq_iff.mp h
  · have hview := congrArg view heq
    rcases view_ofInt64 hm with ⟨hm0, hm1⟩ | ⟨hm0, _, _, _, hm1⟩ | ⟨hm0, _, _, _, hm1⟩
    all_goals
      rcases view_ofInt64 hn with ⟨hn0, hn1⟩ | ⟨hn0, _, _, _, hn1⟩ | ⟨hn0, _, _, _, hn1⟩
      all_goals rw [hm1, hn1] at hview
    -- Doubles of different signs are not the same.
    · exact hm0.trans hn0.symm
    · cases hview
    · cases hview
    · cases hview
    · rw [ofInt64_of_nonneg hm0.le, ofInt64_of_nonneg hn0.le] at heq
      have habs := hmagnitude _ _ hm hn (by omega) (by omega) heq
      omega
    · cases hview
    · cases hview
    · cases hview
    · rw [ofInt64_of_neg hm0, ofInt64_of_neg hn0] at heq
      have habs := hmagnitude _ _ hm hn (by omega) (by omega) (neg_injective heq)
      omega
  · have hnone : ∀ k : Int64, k.toInt.natAbs ≤ 2 ^ 53 → IsZero (ofInt64 k) → k.toInt = 0 := by
      intro k hk hzero
      obtain ⟨s, hs⟩ := isZero_iff.mp hzero
      rcases view_ofInt64 hk with ⟨hk0, -⟩ | ⟨-, _, _, _, hk1⟩ | ⟨-, _, _, _, hk1⟩
      · exact hk0
      · cases hk1.symm.trans hs
      · cases hk1.symm.trans hs
    rw [hnone m hm hzero, hnone n hn hzero']

end Lisp.Number.Binary64
