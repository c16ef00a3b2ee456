import Lisp.Proofs.Number.Spelling

/-!
# Integers behind a base

A base from 2 to 36 in decimal, the letter `r`, and a numeral in that base: the token is read as the
integer that it writes.

Two letters choose the notation of a token wherever they stand, so they do not count as digits.  A
token with both `r` and `e` is refused, and every integer is read back in the bases up to 14, whose
digits are other letters.
-/

namespace Lisp.Number

variable {base m : Nat} {letter : Char} {baseText digits : List Char}

/-! ## 1. The parts of a token -/

/-- The parts of a natural number behind a base: the base in decimal, the letter, and the digits of
the number in that base. -/
structure RadixParts (base : Nat) (baseText : List Char) (letter : Char) (digits : List Char)
    (m : Nat) : Prop where
  two_le : 2 ≤ base
  le_36 : base ≤ 36
  base_numeral : Numeral 10 baseText base
  letter_eq : letter = 'r' ∨ letter = 'R'
  digits_numeral : Numeral base digits m

def radixToken (sign : Sign) (baseText : List Char) (letter : Char) (digits : List Char) :
    List Char :=
  sign.chars ++ (baseText ++ letter :: digits)

namespace Sign

theorem natAbs_apply (sign : Sign) (m : Nat) : (sign.apply m).natAbs = m := by
  unfold apply
  split <;> simp

theorem apply_neg (sign : Sign) (hm : 0 < m) : decide (sign.apply m < 0) = sign.isMinus := by
  cases sign with
  | none => exact decide_eq_false (by simp [apply, isMinus])
  | plus => exact decide_eq_false (by simp [apply, isMinus])
  | minus => exact decide_eq_true (by simpa [apply, isMinus] using hm)

theorem apply_natAbs (z : Int) : (if z < 0 then minus else none).apply z.natAbs = z := by
  split
  · simp only [apply, isMinus, if_true]
    omega
  · simp only [apply, isMinus, Bool.false_eq_true, if_false]
    omega

end Sign

theorem splitAt_radixToken (sign : Sign) (hbase : IsDecimal baseText)
    (hletter : letter = 'r' ∨ letter = 'R') (hdigits : ∀ c ∈ digits, c ≠ 'r' ∧ c ≠ 'R') :
    splitAt (fun c => c = 'r' || c = 'R') (radixToken sign baseText letter digits) =
      [sign.chars ++ baseText, digits] := by
  have hsign : ∀ c ∈ sign.chars, (c = 'r' || c = 'R') = false := by
    cases sign <;> simp [Sign.chars]
  have hfront : ∀ c ∈ sign.chars ++ baseText, (c = 'r' || c = 'R') = false := by
    intro c hc
    rcases List.mem_append.mp hc with hc | hc
    · exact hsign c hc
    · simpa using hbase.plain.forall_mem (fun c => !(c = 'r' || c = 'R')) (by decide) c hc
  have hrest : ∀ c ∈ digits, (c = 'r' || c = 'R') = false := by
    simpa using hdigits
  rw [radixToken, ← List.append_assoc, splitAt_append_cons hfront (by simpa using hletter),
    splitAt_of_forall hrest]

theorem hasBasePrefix_cons_cons {c d : Char} {rest : List Char}
    (hd : (d = 'x' || d = 'b' || d = 'o') = false) :
    Literal.hasBasePrefix (c :: d :: rest) = false := by
  unfold Literal.hasBasePrefix
  split
  · rename_i heq
    cases heq
    exact hd
  · rfl

namespace RadixParts

theorem isDecimal (h : RadixParts base baseText letter digits m) : IsDecimal baseText :=
  h.base_numeral.forall_mem Text.isDigit (by decide)

theorem exists_isDigit (h : RadixParts base baseText letter digits m) :
    ∃ c rest, baseText = c :: rest ∧ Text.isDigit c = true := by
  obtain ⟨c, rest, rfl⟩ := List.exists_cons_of_ne_nil h.base_numeral.ne_nil
  exact ⟨c, rest, rfl, h.isDecimal c List.mem_cons_self⟩

theorem splitSign_eq (h : RadixParts base baseText letter digits m) (sign : Sign) :
    splitSign (radixToken sign baseText letter digits) =
      (sign.isMinus, baseText ++ letter :: digits) := by
  obtain ⟨c, rest, rfl, hc⟩ := h.exists_isDigit
  exact sign.splitSign_append ⟨c, _, rfl, hc⟩

theorem decimalInteger_eq (h : RadixParts base baseText letter digits m) (sign : Sign) :
    decimalInteger (sign.chars ++ baseText) = some (sign.apply base) := by
  rw [decimalInteger, sign.splitSign_append h.exists_isDigit]
  simp only [Numeral.iff_natOfDigits.mp h.base_numeral]
  rfl

theorem radixInteger_eq (h : RadixParts base baseText letter digits m) (sign : Sign)
    (hdigits : ∀ c ∈ digits, c ≠ 'r' ∧ c ≠ 'R') :
    Literal.radixInteger (radixToken sign baseText letter digits) =
      int64OfMagnitude sign.isMinus m := by
  have hpositive : 0 < base := Nat.lt_of_lt_of_le Nat.two_pos h.two_le
  rw [Literal.radixInteger, splitAt_radixToken sign h.isDecimal h.letter_eq hdigits]
  simp only [h.decimalInteger_eq, sign.natAbs_apply, sign.apply_neg hpositive]
  rw [if_pos ⟨h.two_le, h.le_36⟩, int64OfDigits, Numeral.iff_natOfDigits.mp h.digits_numeral]
  rfl

/-! ## 2. The choice of the notation -/

theorem letter_toLower (h : RadixParts base baseText letter digits m) : letter.toLower = 'r' := by
  rcases h.letter_eq with rfl | rfl <;> rfl

theorem lower_eq (h : RadixParts base baseText letter digits m) :
    (baseText ++ letter :: digits).map Char.toLower =
      baseText ++ 'r' :: digits.map Char.toLower := by
  rw [List.map_append, List.map_cons, h.isDecimal.plain.map_toLower, h.letter_toLower]

theorem hasBasePrefix_lower (h : RadixParts base baseText letter digits m) (rest : List Char) :
    Literal.hasBasePrefix (baseText ++ 'r' :: rest) = false := by
  match baseText, h.base_numeral.ne_nil, h.isDecimal with
  | [c], _, _ => exact hasBasePrefix_cons_cons (by decide)
  | c :: d :: tail, _, hdecimal =>
    have hd := (IsDecimal.plain hdecimal).forall_mem
      (fun d => (d = 'x' || d = 'b' || d = 'o') == false) (by decide) d (by simp)
    exact hasBasePrefix_cons_cons (eq_of_beq hd)

/-- The body holds the letter of a radix integer, no point, and the letter of an exponent only among
its digits. -/
theorem contains_lower (h : RadixParts base baseText letter digits m) :
    (baseText ++ 'r' :: digits.map Char.toLower).contains 'r' = true ∧
    (baseText ++ 'r' :: digits.map Char.toLower).contains '.' = false ∧
    (baseText ++ 'r' :: digits.map Char.toLower).contains 'e' =
      decide (∃ c ∈ digits, c = 'e' ∨ c = 'E') := by
  have hpoint := h.digits_numeral.forall_mem_of_digit (fun c => decide (c.toLower ≠ '.'))
    (by decide)
  have he := h.digits_numeral.forall_mem_of_digit
    (fun c => decide (c.toLower = 'e' ↔ c = 'e' ∨ c = 'E')) (by decide)
  simp only [decide_eq_true_eq] at hpoint he
  refine ⟨by simp, ?_, ?_⟩
  · simpa [h.isDecimal.not_mem (d := '.') (by decide)] using hpoint
  · rw [Bool.eq_iff_iff, List.contains_iff_mem, decide_eq_true_eq]
    simp only [List.mem_append, List.mem_cons, List.mem_map,
      h.isDecimal.not_mem (d := 'e') (by decide), false_or, Char.reduceEq]
    exact exists_congr fun c => and_congr_right (he c)

theorem read_eq (h : RadixParts base baseText letter digits m) (sign : Sign) :
    Literal.read (radixToken sign baseText letter digits) =
      if ∃ c ∈ digits, c = 'e' ∨ c = 'E' then none
      else (Literal.radixInteger (radixToken sign baseText letter digits)).map .int := by
  obtain ⟨hr, hpoint, he⟩ := h.contains_lower
  rw [Literal.read, h.splitSign_eq]
  simp only [h.lower_eq, h.hasBasePrefix_lower, hr, hpoint, he, Bool.true_and, Bool.false_or,
    decide_eq_true_eq, Bool.false_eq_true, if_false, if_true]
  split
  · rfl
  · rfl

end RadixParts

/-! ## 3. Integers in every base -/

def radixOfInt64 (base : Nat) (n : Int64) : List Char :=
  radixToken (if n.toInt < 0 then .minus else .none) (Nat.toDigits 10 base) 'r'
    (Nat.toDigits base n.toInt.natAbs)

theorem radixParts_toDigits (hlow : 2 ≤ base) (hhigh : base ≤ 16) (m : Nat) :
    RadixParts base (Nat.toDigits 10 base) 'r' (Nat.toDigits base m) m where
  two_le := hlow
  le_36 := by omega
  base_numeral := Numeral.iff_natOfDigits.mpr (natOfDigits_toDigits (by decide) (by decide) base)
  letter_eq := .inl rfl
  digits_numeral := Numeral.iff_natOfDigits.mpr (natOfDigits_toDigits hlow hhigh m)

theorem RadixParts.readExactly (h : RadixParts base baseText letter digits m) (sign : Sign)
    (hdigits : ∀ c ∈ digits, c ∉ ['e', 'E', 'r', 'R']) :
    ReadExactly (radixToken sign baseText letter digits) (sign.apply m) := by
  simp only [List.mem_cons, List.not_mem_nil, or_false, not_or] at hdigits
  apply readExactly_of_read
  rw [h.read_eq, if_neg, h.radixInteger_eq]
  · exact fun c hc => ⟨(hdigits c hc).2.2.1, (hdigits c hc).2.2.2⟩
  · rintro ⟨c, hc, rfl | rfl⟩
    · exact (hdigits _ hc).1 rfl
    · exact (hdigits _ hc).2.1 rfl

/-- The digits of the bases up to 14 are none of the letters that choose a notation. -/
theorem numberOfToken_radixOfInt64 (hlow : 2 ≤ base) (hhigh : base ≤ 14) (n : Int64) :
    Reader.numberOfToken (radixOfInt64 base n) = .ok (.int n) := by
  have hplain : ∀ base ≤ 14,
      (alphabet base).all (fun c => decide (c ∉ ['e', 'E', 'r', 'R'])) = true := by
    decide
  have h := radixParts_toDigits hlow (by omega) n.toInt.natAbs
  have hdigits := h.digits_numeral.forall_mem _ (hplain base hhigh)
  have hread := h.readExactly (if n.toInt < 0 then .minus else .none) fun c hc =>
    of_decide_eq_true (hdigits c hc)
  exact hread.held n (Sign.apply_natAbs n.toInt).symm

/-- The digits of a base decide: with the letter of an exponent among them the token is refused as
it stands, and without a letter that chooses a notation it is read as the integer that it writes.
All digits of the bases up to 14 are such, so these write every integer. -/
theorem radix_literal_exact :
    (∀ sign base baseText letter digits m, RadixParts base baseText letter digits m →
      ((∃ c ∈ digits, c = 'e' ∨ c = 'E') →
        Reader.numberOfToken (radixToken sign baseText letter digits) =
          .error (.fault (.numberFormat
            (String.ofList (radixToken sign baseText letter digits))))) ∧
      ((∀ c ∈ digits, c ∉ ['e', 'E', 'r', 'R']) →
        ReadExactly (radixToken sign baseText letter digits) (sign.apply m))) ∧
    ∀ base n, 2 ≤ base → base ≤ 14 →
      Reader.numberOfToken (radixOfInt64 base n) = .ok (.int n) := by
  refine ⟨fun sign base baseText letter digits m h => ⟨fun he => ?_, fun hdigits => ?_⟩, ?_⟩
  · rw [Reader.numberOfToken, h.read_eq, if_pos he]
  · exact h.readExactly sign hdigits
  · exact fun base n hlow hhigh => numberOfToken_radixOfInt64 hlow hhigh n

/-- The greatest integer has the letter of an exponent among its digits in base 36. -/
theorem radix_literal_exact_base36 :
    Reader.numberOfToken "+36R1y2p0ij32e8e7".toList =
      .error (.fault (.numberFormat "+36R1y2p0ij32e8e7")) ∧
    Reader.numberOfToken "-36RzZ".toList = .ok (.int (-1295)) ∧
    Reader.numberOfToken (radixOfInt64 14 Int64.minValue) = .ok (.int Int64.minValue) := by
  have hbase : Numeral 10 "36".toList 36 := Numeral.iff_natOfDigits.mpr (by decide)
  have hgreatest : RadixParts 36 "36".toList 'R' "1y2p0ij32e8e7".toList (2 ^ 63 - 1) :=
    ⟨by decide, by decide, hbase, .inr rfl, Numeral.iff_natOfDigits.mpr (by decide)⟩
  have hplain : RadixParts 36 "36".toList 'R' ['z', 'Z'] 1295 :=
    ⟨by decide, by decide, hbase, .inr rfl, Numeral.iff_natOfDigits.mpr (by decide)⟩
  refine ⟨?_, ?_, ?_⟩
  · exact (radix_literal_exact.1 .plus _ _ _ _ _ hgreatest).1 ⟨'e', by decide, .inl rfl⟩
  · have hread := (radix_literal_exact.1 .minus _ _ _ _ _ hplain).2 (by simp)
    exact hread.held (-1295) (by decide)
  · exact radix_literal_exact.2 14 Int64.minValue (by decide) (by decide)

/-- Fourteen in base sixteen is a token with both letters, and it is not read. -/
theorem radix_literal_fourteen :
    RadixParts 16 "16".toList 'r' ['e'] 14 ∧
    ¬ ReadExactly (radixToken .none "16".toList 'r' ['e']) 14 ∧
    Reader.numberOfToken (radixToken .none "16".toList 'r' ['e']) =
      .error (.fault (.numberFormat "16re")) := by
  have hbase : Numeral 10 "16".toList 16 := Numeral.iff_natOfDigits.mpr (by decide)
  have hparts : RadixParts 16 "16".toList 'r' ['e'] 14 :=
    ⟨by decide, by decide, hbase, .inl rfl, Numeral.iff_natOfDigits.mpr (by decide)⟩
  have herror : Reader.numberOfToken (radixToken .none "16".toList 'r' ['e']) =
      .error (.fault (.numberFormat "16re")) := by
    rw [Reader.numberOfToken, hparts.read_eq, if_pos ⟨'e', by decide, .inl rfl⟩]
    rfl
  refine ⟨hparts, fun hread => ?_, herror⟩
  rw [hread.held 14 (by decide)] at herror
  cases herror

end Lisp.Number
