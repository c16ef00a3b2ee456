import Lisp.Proofs.Number.Powers
import Lisp.Proofs.Number.Signs
import Lisp.Proofs.Number.Spelling
import Lisp.Proofs.Reader.Grammar
import Lisp.Value.Order

/-!
# Numeric tokens that are read as not-a-number

A token that starts like a number is not meant to be not-a-number, which has a name of its own.  Yet a
mantissa and its power of ten are rounded apart from each other before they are multiplied, so a zero
can meet a power that overflows, and a mantissa that overflows can meet a power that vanishes.  These
are the `Indeterminate` tokens; every other literal is read as a value that is equal to itself.
-/

namespace Lisp.Number

open Binary64

variable {text token body part : List Char} {x m : Float} {k : Int} {n : Nat}

/-! ## 1. Parts of a text -/

theorem splitAt_eq_cons {isSeparator : Char → Bool} {parts : List (List Char)}
    (h : splitAt isSeparator text = part :: parts) :
    (∀ d ∈ part, isSeparator d = false) ∧ (parts = [] ∧ text = part ∨
      ∃ c rest, isSeparator c = true ∧ text = part ++ c :: rest ∧ splitAt isSeparator rest = parts) := by
  induction text generalizing part with
  | nil =>
    cases h
    exact ⟨nofun, .inl ⟨rfl, rfl⟩⟩
  | cons c rest ih =>
    rw [splitAt] at h
    split at h
    · rename_i hc
      cases h
      exact ⟨nofun, .inr ⟨c, rest, hc, rfl, rfl⟩⟩
    · rename_i hc
      obtain ⟨first, others, hrest, -⟩ := exists_splitAt_eq_cons isSeparator rest
      rw [hrest] at h
      cases h
      obtain ⟨hinside, hends⟩ := ih hrest
      refine ⟨List.forall_mem_cons.mpr ⟨Bool.not_eq_true _ ▸ hc, hinside⟩, ?_⟩
      rcases hends with ⟨rfl, rfl⟩ | ⟨d, behind, hd, rfl, hparts⟩
      · exact .inl ⟨rfl, rfl⟩
      · exact .inr ⟨d, behind, hd, rfl, hparts⟩

theorem eq_of_splitAt_singleton {isSeparator : Char → Bool}
    (h : splitAt isSeparator text = [part]) : text = part := by
  obtain ⟨-, ⟨-, htext⟩ | ⟨c, rest, -, -, hrest⟩⟩ := splitAt_eq_cons h
  · exact htext
  · obtain ⟨first, others, hcons, -⟩ := exists_splitAt_eq_cons isSeparator rest
    rw [hcons] at hrest
    cases hrest

theorem eq_of_splitAt_pair {isSeparator : Char → Bool} {left right : List Char}
    (h : splitAt isSeparator text = [left, right]) :
    ∃ c, isSeparator c = true ∧ text = left ++ c :: right := by
  obtain ⟨-, ⟨hnil, -⟩ | ⟨c, rest, hc, htext, hrest⟩⟩ := splitAt_eq_cons h
  · cases hnil
  · rw [eq_of_splitAt_singleton hrest] at htext
    exact ⟨c, hc, htext⟩

/-! ## 2. Decimals -/

theorem isNaN_ofBits {bits : Nat} (h : bits ≤ infinityBits) :
    (Float.ofBits (UInt64.ofNat bits)).isNaN = false := by
  have hview : view (Float.ofBits (UInt64.ofNat bits)) = .notANumber ↔
      Float.Model.UnpackedFloat.unpack Float.Model.Format.binary64 (UInt64.ofNat bits).toBitVec =
        .notANumber :=
    unpack_pack_eq_notANumber_iff
  have hbits : (UInt64.ofNat bits).toBitVec.toNat = bits :=
    UInt64.toNat_ofNat_of_lt' (h.trans_lt (by decide))
  replace h : bits ≤ 0x7ff0000000000000 := h
  rw [← Bool.not_eq_true, isNaN_iff, hview, unpack_eq_notANumber_iff]
  rintro ⟨hlast, hmantissa⟩
  -- With the last exponent only infinity is no greater than infinity.
  have hexponent := toNat_unpackExponent (UInt64.ofNat bits).toBitVec
  rw [hlast, hbits] at hexponent
  replace hexponent : 2047 = bits / 2 ^ 52 % 2 ^ 11 := hexponent
  refine hmantissa (BitVec.eq_of_toNat_eq ?_)
  rw [toNat_unpackMantissa, hbits]
  show bits % 2 ^ 52 = 0
  omega

theorem isNaN_nearest (negative : Bool) (numerator denominator : Nat) :
    (nearest negative numerator denominator).isNaN = false := by
  have hle : nearestBits numerator denominator ≤ infinityBits := by
    unfold nearestBits
    split
    · exact Nat.zero_le _
    · exact Nat.min_le_right _ _
  unfold nearest
  cases negative with
  | true => exact (isNaN_neg _).trans (isNaN_ofBits hle)
  | false => exact isNaN_ofBits hle

theorem isNaN_decimalMagnitude {negative : Bool}
    (h : Literal.decimalMagnitude negative body = some x) : x.isNaN = false := by
  unfold Literal.decimalMagnitude at h
  split at h
  · obtain ⟨n, -, rfl⟩ := Option.map_eq_some_iff.mp h
    exact isNaN_nearest _ _ _
  · obtain ⟨n, -, rfl⟩ := Option.map_eq_some_iff.mp h
    exact isNaN_nearest _ _ _
  · cases h

theorem isDecimal_of_natOfDigits (h : natOfDigits 10 text = some n) : IsDecimal text :=
  (Numeral.iff_natOfDigits.mpr h).forall_mem Text.isDigit (by decide)

theorem isPlain_of_decimalMagnitude {negative : Bool}
    (h : Literal.decimalMagnitude negative body = some x) : IsPlain body := by
  unfold Literal.decimalMagnitude at h
  split at h
  · rename_i whole hsplit
    obtain ⟨n, hn, -⟩ := Option.map_eq_some_iff.mp h
    rw [eq_of_splitAt_singleton hsplit]
    exact (isDecimal_of_natOfDigits hn).plain
  · rename_i whole fraction hsplit
    obtain ⟨n, hn, -⟩ := Option.map_eq_some_iff.mp h
    obtain ⟨c, hc, rfl⟩ := eq_of_splitAt_pair hsplit
    obtain rfl : c = '.' := of_decide_eq_true hc
    have hdigits := isDecimal_of_natOfDigits hn
    exact IsDecimal.plain_point (fun c hc => hdigits c (List.mem_append_left _ hc))
      (fun c hc => hdigits c (List.mem_append_right _ hc))
  · cases h

def DigitFirst (text : List Char) : Prop := ∃ c rest, text = c :: rest ∧ Text.isDigit c = true

theorem DigitFirst.map_toLower (h : DigitFirst text) : DigitFirst (text.map Char.toLower) := by
  obtain ⟨c, rest, rfl, hc⟩ := h
  refine ⟨c.toLower, rest.map Char.toLower, rfl, ?_⟩
  rwa [toLower_of_isDigit hc]

theorem decimal_of_digitFirst {negative : Bool} (hsplit : splitSign text = (negative, body))
    (h : DigitFirst body) : Literal.decimal text = Literal.decimalMagnitude negative body := by
  have hname : ∀ name : List Char, ¬ DigitFirst name →
      String.ofList (body.map Char.toLower) ≠ String.ofList name := by
    intro name hletter heq
    exact hletter (String.ofList_injective heq ▸ h.map_toLower)
  have hinf := hname "inf".toList (by simp [DigitFirst, Text.isDigit])
  have hinfinity := hname "infinity".toList (by simp [DigitFirst, Text.isDigit])
  have hnan := hname "nan".toList (by simp [DigitFirst, Text.isDigit])
  rw [String.ofList_toList] at hinf hinfinity hnan
  simp only [Literal.decimal, hsplit, hinf, hinfinity, hnan, decide_false, Bool.or_self,
    Bool.false_eq_true, if_false]

/-! ## 3. Scientific notation -/

/-- A text of digits, points and signs, as they stand on either side of the letter. -/
def IsLetterless (text : List Char) : Prop := ∀ c ∈ text, c ∈ "0123456789.+-".toList

theorem IsPlain.isLetterless (h : IsPlain text) : IsLetterless text := fun c hc =>
  List.contains_iff_mem.mp (h.forall_mem (fun c => "0123456789.+-".toList.contains c) (by decide) c hc)

theorem isLetterless_of_exponent (h : Literal.exponent text = some k) : IsLetterless text := by
  obtain ⟨hinteger, -⟩ := Option.filter_eq_some_iff.mp h
  have hdigits : IsLetterless (splitSign text).2 := by
    cases hn : natOfDigits 10 (splitSign text).2 with
    | none =>
      simp only [decimalInteger, hn] at hinteger
      cases hinteger
    | some n => exact (isDecimal_of_natOfDigits hn).plain.isLetterless
  unfold splitSign at hdigits
  split at hdigits
  · exact List.forall_mem_cons.mpr ⟨by decide, hdigits⟩
  · exact List.forall_mem_cons.mpr ⟨by decide, hdigits⟩
  · exact hdigits

namespace IsLetterless

theorem forall_mem (h : IsLetterless text) (test : Char → Bool)
    (hall : "0123456789.+-".toList.all test = true) : ∀ c ∈ text, test c = true :=
  fun c hc => List.all_eq_true.mp hall c (h c hc)

theorem map_toLower (h : IsLetterless text) : text.map Char.toLower = text := by
  have hlower := h.forall_mem (fun c => c.toLower == id c) (by decide)
  rw [List.map_congr_left fun c hc => eq_of_beq (hlower c hc), List.map_id]

theorem of_map_toLower (h : IsLetterless (text.map Char.toLower)) :
    text.map Char.toLower = text := by
  have hcode := h.forall_mem (fun c => decide (c.toNat < 97)) (by decide)
  have hsame : ∀ c ∈ text, c.toLower = id c := fun c hc =>
    toLower_eq_self (of_decide_eq_true (hcode _ (List.mem_map_of_mem hc)))
  rw [List.map_congr_left hsame, List.map_id]

end IsLetterless

/-- The token is a mantissa that is read as `m`, the letter, and an exponent that is read as `k`. -/
inductive Scientific : List Char → Float → Int → Prop
  | mk (sign : Sign) {mantissa exponent : List Char} {letter : Char} {m : Float} {k : Int}
      (hfirst : DigitFirst mantissa) (hletter : letter = 'e' ∨ letter = 'E')
      (hmantissa : Literal.decimalMagnitude sign.isMinus mantissa = some m)
      (hexponent : Literal.exponent exponent = some k) :
      Scientific (sign.chars ++ (mantissa ++ letter :: exponent)) m k

theorem scientific_eq_some_iff {negative : Bool} (h : DigitFirst text) :
    Literal.scientific negative text = some x ↔ ∃ mantissa exponent m k,
      text = mantissa ++ 'e' :: exponent ∧ DigitFirst mantissa ∧
        Literal.decimalMagnitude negative mantissa = some m ∧ Literal.exponent exponent = some k ∧
          x = m * Literal.powerOfTen k := by
  have hdecimal : ∀ mantissa, DigitFirst mantissa →
      Literal.decimal (if negative then '-' :: mantissa else mantissa) =
        Literal.decimalMagnitude negative mantissa := by
    intro mantissa hfirst
    refine decimal_of_digitFirst ?_ hfirst
    cases negative with
    | true => exact Sign.minus.splitSign_append hfirst
    | false => exact Sign.none.splitSign_append hfirst
  constructor
  · intro hread
    unfold Literal.scientific at hread
    split at hread
    · rename_i mantissa exponent hsplit
      obtain ⟨c, hc, rfl⟩ := eq_of_splitAt_pair hsplit
      obtain rfl : c = 'e' := of_decide_eq_true hc
      have hfirst : DigitFirst mantissa := by
        obtain ⟨c, rest, htext, hdigit⟩ := h
        cases mantissa with
        | nil =>
          cases htext
          cases hdigit
        | cons d mantissa =>
          cases htext
          exact ⟨_, _, rfl, hdigit⟩
      rw [hdecimal mantissa hfirst] at hread
      split at hread
      · rename_i m k hm hk
        cases hread
        exact ⟨mantissa, exponent, m, k, rfl, hfirst, hm, hk, rfl⟩
      · cases hread
    · cases hread
  · rintro ⟨mantissa, exponent, m, k, rfl, hfirst, hm, hk, rfl⟩
    have hplain := (isPlain_of_decimalMagnitude hm).forall_mem (fun c => !(c = 'e')) (by decide)
    have hletterless := (isLetterless_of_exponent hk).forall_mem (fun c => !(c = 'e')) (by decide)
    have hsplit : splitAt (· = 'e') (mantissa ++ 'e' :: exponent) = [mantissa, exponent] := by
      rw [splitAt_append_cons (by simpa using hplain) (by decide),
        splitAt_of_forall (by simpa using hletterless)]
    simp only [Literal.scientific, hsplit, hdecimal mantissa hfirst, hm, hk]

theorem Scientific.read_eq (h : Scientific token m k) :
    Literal.read token = some (.float (m * Literal.powerOfTen k)) := by
  cases h with
  | @mk sign mantissa exponent letter _ _ hfirst hletter hmantissa hexponent =>
    have hplain := isPlain_of_decimalMagnitude hmantissa
    have hletterless := isLetterless_of_exponent hexponent
    have hlower : (mantissa ++ letter :: exponent).map Char.toLower =
        mantissa ++ 'e' :: exponent := by
      rw [List.map_append, List.map_cons, hplain.map_toLower, hletterless.map_toLower,
        toLower_eq_e_iff.mpr hletter]
    have hbody : DigitFirst (mantissa ++ letter :: exponent) := by
      obtain ⟨c, rest, rfl, hc⟩ := hfirst
      exact ⟨c, _, rfl, hc⟩
    have hscientific : Literal.scientific sign.isMinus (mantissa ++ 'e' :: exponent) =
        some (m * Literal.powerOfTen k) :=
      (scientific_eq_some_iff (hlower ▸ hbody.map_toLower)).mpr
        ⟨mantissa, exponent, m, k, rfl, hfirst, hmantissa, hexponent, rfl⟩
    -- No letter but the one in the middle chooses the notation.
    have hall : ∀ test : Char → Bool, test 'e' = true → "0123456789.+-".toList.all test = true →
        ∀ c ∈ mantissa ++ 'e' :: exponent, test c = true := by
      intro test he htest
      exact List.forall_mem_append.mpr ⟨hplain.isLetterless.forall_mem test htest,
        List.forall_mem_cons.mpr ⟨he, hletterless.forall_mem test htest⟩⟩
    have hprefix : Literal.hasBasePrefix (mantissa ++ 'e' :: exponent) = false := by
      unfold Literal.hasBasePrefix
      split
      · rename_i c rest heq
        have hletters := hall (fun c => !(c = 'x' || c = 'b' || c = 'o')) (by decide) (by decide)
        simpa using hletters c (heq ▸ by simp)
      · rfl
    have hradix : (mantissa ++ 'e' :: exponent).contains 'r' = false := by
      rw [← Bool.not_eq_true, List.contains_iff_mem]
      exact fun hr => absurd (hall (fun c => !(c = 'r')) (by decide) (by decide) _ hr) (by decide)
    have he : (mantissa ++ 'e' :: exponent).contains 'e' = true :=
      List.contains_iff_mem.mpr (by simp)
    rw [Literal.read, sign.splitSign_append hbody]
    simp only [hlower, hprefix, hradix, he, hscientific, Bool.false_and, Bool.false_eq_true,
      if_false, if_true, Option.map_some]

theorem exists_scientific (sign : Sign) (hfirst : DigitFirst body)
    (hread : Literal.read (sign.chars ++ body) = some (.float x)) (hx : x.isNaN = true) :
    ∃ m k, Scientific (sign.chars ++ body) m k ∧ x = m * Literal.powerOfTen k := by
  have hsplit := sign.splitSign_append hfirst
  rw [Literal.read, hsplit] at hread
  simp only at hread
  split at hread
  · obtain ⟨n, -, hn⟩ := Option.map_eq_some_iff.mp hread
    cases hn
  · split at hread
    · cases hread
    · split at hread
      · obtain ⟨y, hscientific, hy⟩ := Option.map_eq_some_iff.mp hread
        cases hy
        obtain ⟨mantissa, exponent, m, k, hlower, hdigit, hm, hk, rfl⟩ :=
          (scientific_eq_some_iff hfirst.map_toLower).mp hscientific
        obtain ⟨left, tail, rfl, hleft, htail⟩ := List.map_eq_append_iff.mp hlower
        obtain ⟨letter, right, rfl, hletter, hright⟩ := List.map_eq_cons_iff.mp htail
        subst hleft hright
        have hplain := (isPlain_of_decimalMagnitude hm).isLetterless.of_map_toLower
        have hletterless := (isLetterless_of_exponent hk).of_map_toLower
        rw [hplain] at hdigit hm
        rw [hletterless] at hk
        exact ⟨m, k, .mk sign hdigit (toLower_eq_e_iff.mp hletter) hm hk, rfl⟩
      · split at hread
        · obtain ⟨y, hdecimal, hy⟩ := Option.map_eq_some_iff.mp hread
          cases hy
          rw [decimal_of_digitFirst hsplit hfirst] at hdecimal
          rw [isNaN_decimalMagnitude hdecimal] at hx
          cases hx
        · split at hread
          · obtain ⟨n, -, hn⟩ := Option.map_eq_some_iff.mp hread
            cases hn
          · obtain ⟨n, -, hn⟩ := Option.map_eq_some_iff.mp hread
            cases hn

/-! ## 4. Tokens that start like a number -/

theorem exists_sign_of_isNumeric (h : Reader.Grammar.isNumeric token = true) :
    ∃ (sign : Sign) (body : List Char), token = sign.chars ++ body ∧ DigitFirst body := by
  unfold Reader.Grammar.isNumeric at h
  split at h
  · exact ⟨.plus, _, rfl, _, _, rfl, h⟩
  · exact ⟨.minus, _, rfl, _, _, rfl, h⟩
  · exact ⟨.none, _, rfl, _, _, rfl, h⟩
  · cases h

/-- The token is in scientific notation, and either its mantissa is zero and its power of ten
overflows, or its mantissa overflows and its power of ten vanishes. -/
def Indeterminate (token : List Char) : Prop :=
  ∃ m k, Scientific token m k ∧ (IsZero m ∧ 309 ≤ k ∨ m.isInf = true ∧ k ≤ -309)

theorem natAbs_lt_of_exponent (h : Literal.exponent text = some k) : k.natAbs < 2 ^ 32 := by
  obtain ⟨-, hrange⟩ := Option.filter_eq_some_iff.mp h
  obtain ⟨hlow, hhigh⟩ := of_decide_eq_true hrange
  replace hlow : -2147483648 ≤ k := hlow
  replace hhigh : k ≤ 2147483647 := hhigh
  omega

theorem Scientific.isNaN_iff (h : Scientific token m k) :
    (m * Literal.powerOfTen k).isNaN = true ↔
      IsZero m ∧ 309 ≤ k ∨ m.isInf = true ∧ k ≤ -309 := by
  cases h with
  | mk sign hfirst hletter hmantissa hexponent =>
    obtain ⟨hpower, hinf, hzero⟩ := Literal.powerOfTen_spec (natAbs_lt_of_exponent hexponent)
    rw [isNaN_mul_iff, isNaN_decimalMagnitude hmantissa, hpower, hinf, hzero]
    simp only [Bool.false_eq_true, false_or]

theorem numberOfToken_kind {v : Value} (h : Reader.numberOfToken token = .ok v) :
    (∃ n, v = .int n) ∨ ∃ x, v = .float x := by
  unfold Reader.numberOfToken at h
  split at h
  · cases h
    exact .inl ⟨_, rfl⟩
  · cases h
    exact .inr ⟨_, rfl⟩
  · cases h

theorem isNaN_iff_indeterminate (h : Reader.Grammar.isNumeric token = true)
    (hread : Reader.numberOfToken token = .ok (.float x)) :
    x.isNaN = true ↔ Indeterminate token := by
  have hliteral : Literal.read token = some (.float x) := by
    unfold Reader.numberOfToken at hread
    split at hread
    · cases hread
    · rename_i heq
      cases hread
      exact heq
    · cases hread
  constructor
  · intro hx
    obtain ⟨sign, body, rfl, hfirst⟩ := exists_sign_of_isNumeric h
    obtain ⟨m, k, hscientific, rfl⟩ := exists_scientific sign hfirst hliteral hx
    exact ⟨m, k, hscientific, hscientific.isNaN_iff.mp hx⟩
  · rintro ⟨m, k, hscientific, hmeet⟩
    obtain rfl : m * Literal.powerOfTen k = x := by
      simpa using hscientific.read_eq.symm.trans hliteral
    exact hscientific.isNaN_iff.mpr hmeet

theorem Indeterminate.exists_isNaN (h : Indeterminate token) :
    ∃ x, Reader.numberOfToken token = .ok (.float x) ∧ x.isNaN = true := by
  obtain ⟨m, k, hscientific, hmeet⟩ := h
  refine ⟨m * Literal.powerOfTen k, ?_, hscientific.isNaN_iff.mpr hmeet⟩
  rw [Reader.numberOfToken, hscientific.read_eq]

/-- A token that starts like a number is read as not-a-number just if it is indeterminate.  What it
is read as is equal to itself in all other cases. -/
theorem reads_notANumber_iff (h : Reader.Grammar.isNumeric token = true) :
    ((∃ x, Reader.numberOfToken token = .ok (.float x) ∧ x.isNaN = true) ↔
      Indeterminate token) ∧
    ∀ v, Reader.numberOfToken token = .ok v → (v.equals v = true ↔ ¬ Indeterminate token) := by
  refine ⟨⟨?_, Indeterminate.exists_isNaN⟩, fun v hread => ?_⟩
  · rintro ⟨x, hread, hx⟩
    exact (isNaN_iff_indeterminate h hread).mp hx
  · rcases numberOfToken_kind hread with ⟨n, rfl⟩ | ⟨x, rfl⟩
    · have hself : (Value.int n).equals (.int n) = true := by simp [Value.equals]
      refine iff_of_true hself fun hindeterminate => ?_
      obtain ⟨x, hx, -⟩ := hindeterminate.exists_isNaN
      rw [hread] at hx
      cases hx
    · have hself : (Value.float x).equals (.float x) = (x == x) := by simp [Value.equals]
      rw [← isNaN_iff_indeterminate h hread, hself, Bool.not_eq_true]
      exact ⟨fun hx => (beq_iff.mp hx).1, beq_self⟩

/-- Zero with an exponent beyond the doubles is an accepted literal that is not equal to itself. -/
theorem zero_reads_notANumber :
    Reader.Grammar.isNumeric "0e400".toList = true ∧
    ∃ x, Reader.numberOfToken "0e400".toList = .ok (.float x) ∧ x.isNaN = true ∧
      (Value.float x).equals (.float x) = false :=
  ⟨by decide, 0.0 * Literal.powerOfTen 400, by rfl, by decide +kernel, by decide +kernel⟩

/-- The last exponent that zero can have, and the first that it cannot. -/
theorem reads_notANumber_at_zero :
    Reader.Grammar.isNumeric "-0.0E308".toList = true ∧
      Reader.numberOfToken "-0.0E308".toList = .ok (.float (-0.0)) ∧
      ¬ Indeterminate "-0.0E308".toList ∧
    Reader.Grammar.isNumeric "-0.0E309".toList = true ∧ Indeterminate "-0.0E309".toList := by
  have hlast : Reader.numberOfToken "-0.0E308".toList = .ok (.float (-0.0)) := by
    have hproduct : -0.0 * Literal.powerOfTen 308 = -0.0 := by decide +kernel
    rw [← hproduct]
    rfl
  have hfirst : Reader.numberOfToken "-0.0E309".toList =
      .ok (.float (-0.0 * Literal.powerOfTen 309)) := by rfl
  refine ⟨by decide, hlast, ?_, by decide, ?_⟩
  · exact ((reads_notANumber_iff (by decide)).2 _ hlast).mp (by decide)
  · exact (reads_notANumber_iff (by decide)).1.mp ⟨_, hfirst, by decide +kernel⟩

end Lisp.Number
