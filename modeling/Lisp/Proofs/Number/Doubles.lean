import Lisp.Proofs.Number.Bits

/-!
# Signs, products and equality of doubles

A double is one of four kinds of thing: not-a-number, an infinity, a zero, or a finite magnitude, the
last three with a sign.  `view` tells which.  Rounding to the format never makes a result into
not-a-number and never looks at its sign, so a negated factor negates the product, `neg_mul`, and a
product is not-a-number only by its factors, `isNaN_mul_iff`.

Equality holds between a double and itself, unless it is not-a-number, and between the two zeros:
`beq_iff`.
-/

namespace Lisp.Number.Binary64

open Float.Model Float.Model.UnpackedFloat

variable {a b x y z : Float} {u v : UnpackedFloat}

/-! ## 1. Kinds of doubles -/

def view (x : Float) : UnpackedFloat := UnpackedFloat.unpack Format.binary64 (pattern x)

theorem eq_of_view (h : view x = view y) : x = y := by
  refine eq_of_pattern ?_
  rw [← unpack_pattern x, ← unpack_pattern y]
  exact congrArg _ h

theorem isNaN_iff_eq : u.isNaN = true ↔ u = .notANumber := by
  cases u <;> simp [UnpackedFloat.isNaN]

theorem isNaN_iff : x.isNaN = true ↔ view x = .notANumber := isNaN_iff_eq

theorem isInf_iff : x.isInf = true ↔ ∃ s, view x = .infinity s := by
  show (view x).isInf = true ↔ _
  cases view x <;> simp [UnpackedFloat.isInf]

def IsZero (x : Float) : Prop := x = 0.0 ∨ x = -0.0

theorem isZero_iff : IsZero x ↔ ∃ s, view x = .zero s := by
  have hpositive : view 0.0 = .zero .positive := by rfl
  have hnegative : view (-0.0) = .zero .negative := by rfl
  constructor
  · rintro (rfl | rfl)
    · exact ⟨.positive, hpositive⟩
    · exact ⟨.negative, hnegative⟩
  · rintro ⟨s, hs⟩
    cases s with
    | positive => exact .inl (eq_of_view (hs.trans hpositive.symm))
    | negative => exact .inr (eq_of_view (hs.trans hnegative.symm))

/-! ## 2. Rounding to the format -/

/-- Whatever is packed other than not-a-number has three fields, none of them those of not-a-number,
and the negated thing differs from it in the sign alone. -/
theorem exists_pack_eq (hu : u ≠ .notANumber) :
    ∃ s e m, (e = -1#_ → m = 0#_) ∧ pack Format.binary64 u = packComponents Format.binary64 s e m ∧
      pack Format.binary64 u.neg = packComponents Format.binary64 (-s) e m := by
  cases u with
  | notANumber => exact absurd rfl hu
  | infinity s => exact ⟨s, _, _, fun _ => rfl, rfl, rfl⟩
  | zero s => exact ⟨s, _, _, fun _ => rfl, rfl, rfl⟩
  | finite s m e hm =>
    simp only [UnpackedFloat.neg, UnpackedFloat.pack]
    split
    · exact ⟨s, _, _, fun _ => rfl, rfl, rfl⟩
    · rename_i hsmall
      split
      · refine ⟨s, _, _, fun hlast => ?_, rfl, rfl⟩
        -- An exponent field with all bits set would have been too great.
        have hvalue := congrArg BitVec.toNat hlast
        rw [BitVec.toNat_ofNat] at hvalue
        replace hsmall : ¬ 2 ^ 11 ≤ _ + 1 := hsmall
        replace hvalue : _ % 2 ^ 11 = 2047 := hvalue
        omega
      · exact ⟨s, _, _, fun hlast => absurd hlast (by decide), rfl, rfl⟩

theorem unpack_pack_neg (u : UnpackedFloat) :
    unpack Format.binary64 (pack Format.binary64 u.neg) =
      (unpack Format.binary64 (pack Format.binary64 u)).neg := by
  by_cases hu : u = .notANumber
  · subst hu
    rfl
  · obtain ⟨s, e, m, -, hpack, hneg⟩ := exists_pack_eq hu
    rw [hpack, hneg, unpack_packComponents_neg]

theorem unpack_eq_notANumber_iff {b : Pattern} :
    unpack Format.binary64 b = .notANumber ↔ unpackExponent b = -1#_ ∧ unpackMantissa b ≠ 0#_ := by
  rw [UnpackedFloat.unpack]
  split
  · rename_i hlast
    split <;> simp_all
  · rename_i hlast
    refine iff_of_false ?_ fun h => hlast h.1
    split
    · split <;> exact UnpackedFloat.noConfusion
    · exact UnpackedFloat.noConfusion

theorem unpack_pack_eq_notANumber_iff :
    unpack Format.binary64 (pack Format.binary64 u) = .notANumber ↔ u = .notANumber := by
  by_cases hu : u = .notANumber
  · subst hu
    exact ⟨fun _ => rfl, fun _ => rfl⟩
  · obtain ⟨s, e, m, hlast, hpack, -⟩ := exists_pack_eq hu
    rw [hpack, unpack_eq_notANumber_iff, unpackMantissa_packComponents,
      unpackExponent_packComponents]
    exact iff_of_false (fun h => h.2 (hlast h.1)) hu

/-! ## 3. Signs -/

theorem view_neg (x : Float) : view (-x) = (view x).neg := by
  show unpack Format.binary64 (pack Format.binary64 (view x).neg) = _
  rw [unpack_pack_neg]
  exact congrArg (fun b => (unpack Format.binary64 b).neg) (unpack_pattern x)

theorem isNaN_neg (x : Float) : (-x).isNaN = x.isNaN := by
  rw [Bool.eq_iff_iff, isNaN_iff, isNaN_iff, view_neg]
  cases view x <;> simp [UnpackedFloat.neg]

theorem roundWithAccuracy_neg (s : Sign) (m : Nat) (e : Int) (accuracy : Accuracy) :
    roundWithAccuracy Format.binary64 (-s) m e accuracy =
      (roundWithAccuracy Format.binary64 s m e accuracy).neg := by
  simp only [roundWithAccuracy]
  split <;> rfl

theorem mul_neg_left (u v : UnpackedFloat) :
    UnpackedFloat.mul Format.binary64 u.neg v = (UnpackedFloat.mul Format.binary64 u v).neg := by
  have hsign : ∀ s t : Sign, -s * t = -(s * t) := by
    intro s t
    cases s <;> cases t <;> rfl
  cases u <;> cases v <;>
    simp only [UnpackedFloat.neg, UnpackedFloat.mul, hsign, roundWithAccuracy_neg]

/-- A negated factor negates the product, whether it rounds, overflows or is not a number. -/
theorem neg_mul (a b : Float) : -a * b = -(a * b) := by
  refine eq_of_view ?_
  rw [view_neg]
  show unpack Format.binary64 (pack Format.binary64 (UnpackedFloat.mul _ (view (-a)) (view b))) = _
  rw [view_neg, mul_neg_left, unpack_pack_neg]
  rfl

/-! ## 4. Not-a-number -/

theorem roundWithAccuracy_ne_notANumber (s : Sign) (m : Nat) (e : Int) (accuracy : Accuracy) :
    roundWithAccuracy Format.binary64 s m e accuracy ≠ .notANumber := by
  simp only [roundWithAccuracy]
  split <;> exact UnpackedFloat.noConfusion

/-- A product is not a number if a factor is none, or if a zero meets an infinity. -/
theorem isNaN_mul_iff :
    (a * b).isNaN = true ↔ a.isNaN = true ∨ b.isNaN = true ∨
      IsZero a ∧ b.isInf = true ∨ a.isInf = true ∧ IsZero b := by
  have hproduct : (a * b).isNaN = true ↔
      UnpackedFloat.mul Format.binary64 (view a) (view b) = .notANumber :=
    isNaN_iff.trans unpack_pack_eq_notANumber_iff
  rw [hproduct, isNaN_iff, isNaN_iff, isInf_iff, isInf_iff, isZero_iff, isZero_iff]
  cases view a <;> cases view b <;>
    simp [UnpackedFloat.mul, roundWithAccuracy_ne_notANumber]

/-! ## 5. Equality -/

theorem compare_eq_iff :
    UnpackedFloat.compare u v = some .eq ↔
      u ≠ .notANumber ∧ (u = v ∨ (∃ s, u = .zero s) ∧ ∃ s, v = .zero s) := by
  have hfinite : ∀ (e₁ e₂ : Int) (m₁ m₂ : Nat),
      (compare e₁ e₂).then (compare m₁ m₂) = .eq ↔ e₁ = e₂ ∧ m₁ = m₂ := by
    intro e₁ e₂ m₁ m₂
    rw [Ordering.then_eq_eq, compare_eq_iff_eq, compare_eq_iff_eq]
  cases u with
  | notANumber => simp [UnpackedFloat.compare]
  | infinity s =>
    cases v with
    | infinity t => cases s <;> cases t <;> simp [UnpackedFloat.compare] <;> decide
    | _ => cases s <;> simp [UnpackedFloat.compare]
  | zero s =>
    cases v with
    | infinity t => cases t <;> simp [UnpackedFloat.compare]
    | finite t => cases t <;> simp [UnpackedFloat.compare]
    | _ => simp [UnpackedFloat.compare]
  | finite s m e =>
    cases v with
    | notANumber => simp [UnpackedFloat.compare]
    | infinity t => cases s <;> cases t <;> simp [UnpackedFloat.compare]
    | zero t => cases s <;> simp [UnpackedFloat.compare]
    | finite t n f =>
      cases s <;> cases t <;> simp [UnpackedFloat.compare, hfinite, and_comm]

/-- Equality of doubles is identity, except that not-a-number is equal to nothing and the two zeros
are equal to each other. -/
theorem beq_iff : (x == y) = true ↔ x.isNaN = false ∧ (x = y ∨ IsZero x ∧ IsZero y) := by
  have hcompare : (x == y) = true ↔ UnpackedFloat.compare (view x) (view y) = some .eq := by
    show (UnpackedFloat.compare (view x) (view y) == some .eq) = true ↔ _
    exact beq_iff_eq
  have hsame : x = y ↔ view x = view y := ⟨congrArg view, eq_of_view⟩
  rw [hcompare, compare_eq_iff, hsame, isZero_iff, isZero_iff, ← Bool.not_eq_true, isNaN_iff]

theorem IsZero.isNaN (hx : IsZero x) : x.isNaN = false := by
  rcases hx with rfl | rfl
  · decide
  · decide

theorem beq_self (hx : x.isNaN = false) : (x == x) = true := beq_iff.mpr ⟨hx, .inl rfl⟩

theorem beq_symm (h : (x == y) = true) : (y == x) = true := by
  obtain ⟨hx, rfl | ⟨hzero, hzero'⟩⟩ := beq_iff.mp h
  · exact h
  · exact beq_iff.mpr ⟨hzero'.isNaN, .inr ⟨hzero', hzero⟩⟩

theorem beq_trans (h : (x == y) = true) (h' : (y == z) = true) : (x == z) = true := by
  obtain ⟨hx, rfl | ⟨hzero, hzero'⟩⟩ := beq_iff.mp h
  · exact h'
  · obtain ⟨-, rfl | ⟨-, hzero''⟩⟩ := beq_iff.mp h'
    · exact h
    · exact beq_iff.mpr ⟨hx, .inr ⟨hzero, hzero''⟩⟩

end Lisp.Number.Binary64
