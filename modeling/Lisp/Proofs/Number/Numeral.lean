import Lisp.Number.Literal
import Mathlib

/-!
# Numerals

The digits of a number denote it: `natOfDigits_toDigits` in every base up to sixteen, and
`read_decimalOfInt64` for the decimal text of a 64-bit integer as a whole token.  A token in decimal
digits has none of the letters and prefixes that would make it mean something else.
-/

namespace Lisp.Number

variable {base n : Nat}

/-! ## 1. Digits and their value -/

theorem digitIn_digitChar (hbase : base ≤ 16) (hn : n < base) :
    digitIn base n.digitChar = some n := by
  have hall : ∀ k < 16, digitValue (Nat.digitChar k) = some k := by decide
  rw [digitIn, hall n (Nat.lt_of_lt_of_le hn hbase)]
  simp [hn]

theorem appendDigit_digitChar (hbase : base ≤ 16) (hn : n < base) (value : Nat) :
    appendDigit base value n.digitChar = some (value * base + n) := by
  rw [appendDigit, digitIn_digitChar hbase hn]
  rfl

theorem foldlM_toDigits (hbase : 1 < base) (hle : base ≤ 16) :
    (Nat.toDigits base n).foldlM (appendDigit base) 0 = some n := by
  induction n using Nat.base_induction base hbase with
  | single m hm =>
    rw [Nat.toDigits_of_lt_base hm, List.foldlM_cons, appendDigit_digitChar hle hm]
    simp
  | digit m k hk hm ih =>
    rw [← Nat.toDigits_append_toDigits hbase hm hk, List.foldlM_append, ih,
      Nat.toDigits_of_lt_base hk]
    show (appendDigit base m k.digitChar >>= fun value => [].foldlM (appendDigit base) value) = _
    rw [appendDigit_digitChar hle hk, Nat.mul_comm m base]
    rfl

theorem foldlM_replicate_zero (hbase : 1 < base) (hle : base ≤ 16) (count value : Nat) :
    (List.replicate count '0').foldlM (appendDigit base) value = some (value * base ^ count) := by
  induction count generalizing value with
  | zero => simp
  | succ count ih =>
    have hzero : appendDigit base value '0' = some (value * base) :=
      appendDigit_digitChar (n := 0) hle (by omega) value
    rw [List.replicate_succ, List.foldlM_cons, hzero, Nat.pow_succ', ← Nat.mul_assoc]
    exact ih (value * base)

theorem natOfDigits_of_foldlM {digits : List Char} (hne : digits ≠ [])
    (h : digits.foldlM (appendDigit base) 0 = some n) : natOfDigits base digits = some n := by
  rw [natOfDigits, if_neg (by simpa using hne), h]

theorem natOfDigits_toDigits (hbase : 1 < base) (hle : base ≤ 16) (n : Nat) :
    natOfDigits base (Nat.toDigits base n) = some n :=
  natOfDigits_of_foldlM Nat.toDigits_ne_nil (foldlM_toDigits hbase hle)

theorem natOfDigits_zeros_toDigits (hbase : 1 < base) (hle : base ≤ 16) (count n : Nat) :
    natOfDigits base (List.replicate count '0' ++ Nat.toDigits base n) = some n := by
  refine natOfDigits_of_foldlM (by simp) ?_
  rw [List.foldlM_append, foldlM_replicate_zero hbase hle, Nat.zero_mul]
  exact foldlM_toDigits hbase hle

theorem natOfDigits_toDigits_zeros (hbase : 1 < base) (hle : base ≤ 16) (n count : Nat) :
    natOfDigits base (Nat.toDigits base n ++ List.replicate count '0') =
      some (n * base ^ count) := by
  refine natOfDigits_of_foldlM (by simp) ?_
  rw [List.foldlM_append, foldlM_toDigits hbase hle]
  exact foldlM_replicate_zero hbase hle count n

theorem natOfDigits_hexadecimal (width n : Nat) :
    natOfDigits 16 (hexadecimal width n) = some n :=
  natOfDigits_zeros_toDigits (by decide) (by decide) _ n

/-! ## 2. Texts of digits and points -/

def IsDecimal (text : List Char) : Prop := ∀ c ∈ text, Text.isDigit c = true

def IsPlain (text : List Char) : Prop := ∀ c ∈ text, Text.isDigit c = true ∨ c = '.'

theorem isDigit_of_charIsDigit {c : Char} (h : c.isDigit = true) : Text.isDigit c = true := by
  simp only [Char.isDigit, Bool.and_eq_true, decide_eq_true_eq, UInt32.le_iff_toNat_le] at h
  simp only [Text.isDigit, Bool.and_eq_true, decide_eq_true_eq]
  exact h

theorem isDecimal_toDigits (n : Nat) : IsDecimal (Nat.toDigits 10 n) := fun _ hc =>
  isDigit_of_charIsDigit (Nat.isDigit_of_mem_toDigits (by decide) (by decide) hc)

theorem isDecimal_replicate_zero (count : Nat) : IsDecimal (List.replicate count '0') := by
  intro c hc
  rw [List.eq_of_mem_replicate hc]
  decide

theorem IsDecimal.append {left right : List Char} (hleft : IsDecimal left)
    (hright : IsDecimal right) : IsDecimal (left ++ right) := by
  intro c hc
  rcases List.mem_append.mp hc with h | h
  · exact hleft c h
  · exact hright c h

theorem IsDecimal.plain {text : List Char} (h : IsDecimal text) : IsPlain text :=
  fun c hc => .inl (h c hc)

theorem IsDecimal.plain_point {whole fraction : List Char} (hwhole : IsDecimal whole)
    (hfraction : IsDecimal fraction) : IsPlain (whole ++ '.' :: fraction) := by
  intro c hc
  rcases List.mem_append.mp hc with h | h
  · exact .inl (hwhole c h)
  · rcases List.mem_cons.mp h with rfl | h
    · exact .inr rfl
    · exact .inl (hfraction c h)

theorem IsDecimal.not_mem {text : List Char} {d : Char} (h : IsDecimal text)
    (hd : Text.isDigit d = false) : d ∉ text := by
  intro hmem
  rw [h d hmem] at hd
  cases hd

namespace IsPlain

variable {text : List Char}

theorem mem (h : IsPlain text) {c : Char} (hc : c ∈ text) : c ∈ "0123456789.".toList := by
  rcases h c hc with hdigit | rfl
  · simp only [Text.isDigit, Bool.and_eq_true, decide_eq_true_eq] at hdigit
    have hall : ∀ code ≤ 0x39, 0x30 ≤ code → Char.ofNat code ∈ "0123456789.".toList := by decide
    rw [← Char.ofNat_toNat c]
    exact hall c.toNat hdigit.2 hdigit.1
  · decide

theorem forall_mem (h : IsPlain text) (test : Char → Bool)
    (hall : "0123456789.".toList.all test = true) : ∀ c ∈ text, test c = true :=
  fun c hc => List.all_eq_true.mp hall c (h.mem hc)

theorem not_mem (h : IsPlain text) {d : Char} (hd : d ∉ "0123456789.".toList) : d ∉ text :=
  fun hmem => hd (h.mem hmem)

theorem map_toLower (h : IsPlain text) : text.map Char.toLower = text := by
  have hlower := h.forall_mem (fun c => c.toLower == id c) (by decide)
  rw [List.map_congr_left fun c hc => eq_of_beq (hlower c hc), List.map_id]

theorem hasBasePrefix (h : IsPlain text) : Literal.hasBasePrefix text = false := by
  unfold Literal.hasBasePrefix
  split
  · rename_i c rest
    have hletters := h.forall_mem (fun c => !(c = 'x' || c = 'b' || c = 'o')) (by decide)
    simpa using hletters c (by simp)
  · rfl

theorem splitSign (h : IsPlain text) (negative : Bool) :
    splitSign (if negative then '-' :: text else text) = (negative, text) := by
  cases negative with
  | true => rfl
  | false =>
    show Number.splitSign text = (false, text)
    unfold Number.splitSign
    split
    · exact absurd List.mem_cons_self (h.not_mem (d := '-') (by decide))
    · exact absurd List.mem_cons_self (h.not_mem (d := '+') (by decide))
    · rfl

end IsPlain

/-! ## 3. Tokens -/

theorem splitAt_of_forall {isSeparator : Char → Bool} {text : List Char}
    (h : ∀ c ∈ text, isSeparator c = false) : splitAt isSeparator text = [text] := by
  induction text with
  | nil => rfl
  | cons c rest ih =>
    rw [splitAt, h c List.mem_cons_self, ih fun d hd => h d (List.mem_cons_of_mem c hd)]
    rfl

theorem splitAt_append_cons {isSeparator : Char → Bool} {left rest : List Char} {c : Char}
    (hleft : ∀ d ∈ left, isSeparator d = false) (hc : isSeparator c = true) :
    splitAt isSeparator (left ++ c :: rest) = left :: splitAt isSeparator rest := by
  induction left with
  | nil =>
    rw [List.nil_append, splitAt, if_pos hc]
  | cons d left ih =>
    rw [List.cons_append, splitAt, hleft d List.mem_cons_self,
      ih fun e he => hleft e (List.mem_cons_of_mem d he)]
    rfl

variable {body : List Char}

theorem read_of_plain (h : IsPlain body) (negative : Bool) :
    Literal.read (if negative then '-' :: body else body) =
      if '.' ∈ body then
        (Literal.decimal (if negative then '-' :: body else body)).map .float
      else (Literal.integer negative body).map .int := by
  have hr : body.contains 'r' = false := by simpa using h.not_mem (d := 'r') (by decide)
  have he : body.contains 'e' = false := by simpa using h.not_mem (d := 'e') (by decide)
  rw [Literal.read, h.splitSign]
  simp only [h.map_toLower, h.hasBasePrefix, hr, he]
  simp

theorem toDigits_head (n : Nat) : n = 0 ∨ ∀ rest, Nat.toDigits 10 n ≠ '0' :: rest := by
  induction n using Nat.base_induction 10 (by decide) with
  | single m hm =>
    rw [Nat.toDigits_of_lt_base hm]
    by_cases hzero : m = 0
    · exact .inl hzero
    · refine .inr fun rest hcons => hzero ?_
      exact Nat.digitChar_eq_zero.mp (List.cons.inj hcons).1
  | digit m k hk hm ih =>
    refine .inr fun rest hcons => ?_
    rw [← Nat.toDigits_append_toDigits (by decide) hm hk] at hcons
    obtain ⟨d, tail, hd⟩ := List.exists_cons_of_ne_nil (Nat.toDigits_ne_nil (n := m) (b := 10))
    rw [hd] at hcons
    rcases ih with hzero | hhead
    · omega
    · -- The first digit is also that of the number without its last digit.
      refine hhead tail ?_
      rw [hd, (List.cons.inj hcons).1]

theorem basePrefix_toDigits (n : Nat) :
    Literal.basePrefix (Nat.toDigits 10 n) = (10, Nat.toDigits 10 n) := by
  rcases toDigits_head n with rfl | hhead
  · rfl
  · generalize hdigits : Nat.toDigits 10 n = digits at hhead
    unfold Literal.basePrefix
    split
    all_goals first
      | exact absurd rfl (hhead _)
      | rfl

theorem int64OfMagnitude_natAbs (n : Int64) :
    int64OfMagnitude (decide (n.toInt < 0)) n.toInt.natAbs = some n := by
  have hlow := n.le_toInt
  have hhigh := n.toInt_lt
  unfold int64OfMagnitude
  -- The least integer has a greater magnitude than any other, which only a negative one may have.
  by_cases hneg : n.toInt < 0
  · have habs : -(n.toInt.natAbs : Int) = n.toInt := by omega
    rw [if_pos (by simpa using hneg), if_pos (by omega), habs, Int64.ofInt_toInt]
  · have habs : (n.toInt.natAbs : Int) = n.toInt := by omega
    rw [if_neg (by simpa using hneg), if_pos (by omega), habs, Int64.ofInt_toInt]

theorem decimalOfInt64_eq (n : Int64) :
    decimalOfInt64 n = if decide (n.toInt < 0) then '-' :: Nat.toDigits 10 n.toInt.natAbs
      else Nat.toDigits 10 n.toInt.natAbs := by
  simp [decimalOfInt64]

/-- The decimal text of a 64-bit integer denotes it, the least one included. -/
theorem read_decimalOfInt64 (n : Int64) : Literal.read (decimalOfInt64 n) = some (.int n) := by
  have hdigits := isDecimal_toDigits n.toInt.natAbs
  -- Underscores between the digits are passed over; here there are none.
  have hfilter : (Nat.toDigits 10 n.toInt.natAbs).filter (· ≠ '_') =
      Nat.toDigits 10 n.toInt.natAbs := by
    refine List.filter_eq_self.mpr fun c hc => decide_eq_true ?_
    rintro rfl
    exact hdigits.not_mem (by decide) hc
  rw [decimalOfInt64_eq, read_of_plain hdigits.plain, if_neg (hdigits.not_mem (by decide)), Literal.integer,
    hfilter, basePrefix_toDigits]
  show (int64OfDigits _ 10 _).map Literal.int = _
  rw [int64OfDigits, natOfDigits_toDigits (by decide) (by decide)]
  show (int64OfMagnitude _ _).map Literal.int = _
  rw [int64OfMagnitude_natAbs]
  rfl

theorem read_point {whole fraction : List Char} (hwhole : IsDecimal whole)
    (hfraction : IsDecimal fraction) (negative : Bool)
    (hdigits : natOfDigits 10 (whole ++ fraction) = some n) :
    Literal.read (if negative then '-' :: (whole ++ '.' :: fraction)
        else whole ++ '.' :: fraction) =
      some (.float (Binary64.nearest negative n (10 ^ fraction.length))) := by
  have hplain := hwhole.plain_point hfraction
  have hpoint : '.' ∈ whole ++ '.' :: fraction := by simp
  -- The names of the special values hold no point, so the text is none of them.
  have hname : ∀ name : String, '.' ∉ name.toList →
      String.ofList (whole ++ '.' :: fraction) ≠ name := by
    rintro name hname rfl
    exact hname (by rwa [String.toList_ofList])
  have hnot : ∀ {text : List Char}, IsDecimal text → ∀ c ∈ text, decide (c = '.') = false := by
    intro text htext c hc
    refine decide_eq_false ?_
    rintro rfl
    exact htext.not_mem (by decide) hc
  have hsplit : splitAt (· = '.') (whole ++ '.' :: fraction) = [whole, fraction] := by
    rw [splitAt_append_cons (hnot hwhole) (by simp), splitAt_of_forall (hnot hfraction)]
  rw [read_of_plain hplain, if_pos hpoint, Literal.decimal, hplain.splitSign]
  simp only [hplain.map_toLower]
  rw [decide_eq_false (hname "inf" (by decide)), decide_eq_false (hname "infinity" (by decide)),
    Bool.or_self, if_neg Bool.false_ne_true, if_neg (hname "nan" (by decide)),
    Literal.decimalMagnitude, hsplit]
  simp only [hdigits]
  rfl

end Lisp.Number
