import Lisp.Proofs.Number.Numeral
import Lisp.Reader.Basic

/-!
# Spellings of integers

How an integer may be written, said without a reader: a sign or none, then decimal digits, or a
prefix and digits in the base that it names, with underscores among them.  A spelling is read as the
integer that it writes, or is refused if 64 bits do not hold that integer.
-/

namespace Lisp.Number

variable {base d m : Nat} {c : Char} {text body : List Char}

/-! ## 1. Numerals -/

def lowerDigits : List Char := "0123456789abcdefghijklmnopqrstuvwxyz".toList

def upperDigits : List Char := "0123456789ABCDEFGHIJKLMNOPQRSTUVWXYZ".toList

def WritesDigit (c : Char) (d : Nat) : Prop :=
  lowerDigits[d]? = some c ∨ upperDigits[d]? = some c

/-- The text writes the number in the base, the highest digit first and zeros in front or none. -/
inductive Numeral (base : Nat) : List Char → Nat → Prop
  | digit {c : Char} {d : Nat} (hd : d < base) (hc : WritesDigit c d) : Numeral base [c] d
  | append {text : List Char} {m : Nat} {c : Char} {d : Nat} (hfront : Numeral base text m)
      (hd : d < base) (hc : WritesDigit c d) : Numeral base (text ++ [c]) (m * base + d)

def alphabet (base : Nat) : List Char := lowerDigits.take base ++ upperDigits.take base

theorem alphabet_subset (base : Nat) : alphabet base ⊆ alphabet 36 := by
  intro c hc
  rcases List.mem_append.mp hc with h | h
  · exact List.mem_append_left _ (List.mem_of_mem_take h)
  · exact List.mem_append_right _ (List.mem_of_mem_take h)

theorem WritesDigit.mem_alphabet (h : WritesDigit c d) (hd : d < base) : c ∈ alphabet base := by
  rcases h with h | h
  · exact List.mem_append_left _ (List.mem_of_getElem? ((List.getElem?_take_of_lt hd).trans h))
  · exact List.mem_append_right _ (List.mem_of_getElem? ((List.getElem?_take_of_lt hd).trans h))

theorem WritesDigit.digitValue_eq (h : WritesDigit c d) : digitValue c = some d := by
  have hlower : ∀ k < 36, (lowerDigits[k]?).map digitValue = some (some k) := by decide
  have hupper : ∀ k < 36, (upperDigits[k]?).map digitValue = some (some k) := by decide
  rcases h with h | h
  · have hd := (List.getElem?_eq_some_iff.mp h).1
    simpa [h] using hlower d hd
  · have hd := (List.getElem?_eq_some_iff.mp h).1
    simpa [h] using hupper d hd

theorem writesDigit_of_digitValue (h : digitValue c = some d) : WritesDigit c d := by
  have hall : ∀ code ≤ 0x7a, ∀ k ∈ digitValue (Char.ofNat code),
      lowerDigits[k]? = some (Char.ofNat code) ∨ upperDigits[k]? = some (Char.ofNat code) := by
    decide
  have hcode : c.toNat ≤ 0x7a := by
    by_contra hgreat
    simp only [digitValue, Text.isDigit] at h
    grind
  rw [WritesDigit, ← Char.ofNat_toNat c]
  exact hall c.toNat hcode d (by rw [Char.ofNat_toNat]; exact h)

theorem digitIn_eq_some_iff : digitIn base c = some d ↔ d < base ∧ WritesDigit c d := by
  rw [digitIn, Option.filter_eq_some_iff, decide_eq_true_eq, and_comm]
  exact and_congr_right fun _ => ⟨writesDigit_of_digitValue, WritesDigit.digitValue_eq⟩

theorem appendDigit_eq_some_iff {value : Nat} :
    appendDigit base value c = some m ↔
      ∃ d, d < base ∧ WritesDigit c d ∧ value * base + d = m := by
  simp only [appendDigit, Option.map_eq_some_iff, digitIn_eq_some_iff, and_assoc]

namespace Numeral

theorem ne_nil (h : Numeral base text m) : text ≠ [] := by
  cases h <;> simp

theorem foldlM_eq (h : Numeral base text m) : text.foldlM (appendDigit base) 0 = some m := by
  induction h with
  | @digit c d hd hc =>
    have happend : appendDigit base 0 c = some d :=
      appendDigit_eq_some_iff.mpr ⟨d, hd, hc, by omega⟩
    simpa using happend
  | @append text m c d _ hd hc ih =>
    rw [List.foldlM_append, ih]
    simpa using appendDigit_eq_some_iff.mpr ⟨d, hd, hc, rfl⟩

theorem of_foldlM (hne : text ≠ []) (h : text.foldlM (appendDigit base) 0 = some m) :
    Numeral base text m := by
  induction text using List.reverseRecOn generalizing m with
  | nil => exact absurd rfl hne
  | append_singleton front c ih =>
    rw [List.foldlM_append] at h
    obtain ⟨value, hvalue, hlast⟩ := Option.bind_eq_some_iff.mp h
    have hlast : appendDigit base value c = some m := by simpa using hlast
    obtain ⟨d, hd, hc, rfl⟩ := appendDigit_eq_some_iff.mp hlast
    by_cases hfront : front = []
    · subst hfront
      cases hvalue
      rw [List.nil_append, Nat.zero_mul, Nat.zero_add]
      exact .digit hd hc
    · exact .append (ih hfront hvalue) hd hc

theorem iff_natOfDigits : Numeral base text m ↔ natOfDigits base text = some m := by
  constructor
  · exact fun h => natOfDigits_of_foldlM h.ne_nil h.foldlM_eq
  · intro h
    unfold natOfDigits at h
    split at h
    · cases h
    · rename_i hne
      exact of_foldlM (by simpa using hne) h

theorem mem_alphabet (h : Numeral base text m) : ∀ c ∈ text, c ∈ alphabet base := by
  induction h with
  | digit hd hc =>
    intro c hmem
    rw [List.mem_singleton.mp hmem]
    exact hc.mem_alphabet hd
  | append _ hd hc ih =>
    intro c hmem
    rcases List.mem_append.mp hmem with hmem | hmem
    · exact ih c hmem
    · rw [List.mem_singleton.mp hmem]
      exact hc.mem_alphabet hd

theorem forall_mem (h : Numeral base text m) (test : Char → Bool)
    (hall : (alphabet base).all test = true) : ∀ c ∈ text, test c = true :=
  fun c hc => List.all_eq_true.mp hall c (h.mem_alphabet c hc)

theorem forall_mem_of_digit (h : Numeral base text m) (test : Char → Bool)
    (hall : (alphabet 36).all test = true) : ∀ c ∈ text, test c = true :=
  fun c hc => List.all_eq_true.mp hall c (alphabet_subset base (h.mem_alphabet c hc))

end Numeral

/-! ## 2. Signs -/

inductive Sign where
  | none
  | plus
  | minus

namespace Sign

def chars : Sign → List Char
  | none => []
  | plus => ['+']
  | minus => ['-']

def isMinus : Sign → Bool
  | none => false
  | plus => false
  | minus => true

def apply (sign : Sign) (m : Nat) : Int := if sign.isMinus then -(m : Int) else m

theorem splitSign_append (sign : Sign)
    (hbody : ∃ c rest, body = c :: rest ∧ Text.isDigit c = true) :
    splitSign (sign.chars ++ body) = (sign.isMinus, body) := by
  obtain ⟨c, rest, rfl, hdigit⟩ := hbody
  cases sign with
  | none =>
    show splitSign (c :: rest) = (false, c :: rest)
    unfold splitSign
    split
    · rename_i heq
      cases heq
      cases hdigit
    · rename_i heq
      cases heq
      cases hdigit
    · rfl
  | plus => rfl
  | minus => rfl

end Sign

/-! ## 3. What a token is read as -/

theorem int64OfMagnitude_of_toInt {sign : Sign} {z : Int64} (hz : z.toInt = sign.apply m) :
    int64OfMagnitude sign.isMinus m = some z := by
  have hlow := z.le_toInt
  have hhigh := z.toInt_lt
  unfold Sign.apply at hz
  unfold int64OfMagnitude
  cases hminus : sign.isMinus with
  | true =>
    rw [hminus, if_pos rfl] at hz
    rw [if_pos rfl, if_pos (by omega), ← hz, Int64.ofInt_toInt]
  | false =>
    rw [hminus, if_neg Bool.false_ne_true] at hz
    rw [if_neg Bool.false_ne_true, if_pos (by omega), ← hz, Int64.ofInt_toInt]

theorem int64OfMagnitude_of_out_of_range {sign : Sign}
    (h : sign.apply m < -2 ^ 63 ∨ 2 ^ 63 ≤ sign.apply m) :
    int64OfMagnitude sign.isMinus m = none := by
  unfold Sign.apply at h
  unfold int64OfMagnitude
  cases hminus : sign.isMinus with
  | true =>
    rw [hminus, if_pos rfl] at h
    rw [if_pos rfl, if_neg (by omega)]
  | false =>
    rw [hminus, if_neg Bool.false_ne_true] at h
    rw [if_neg Bool.false_ne_true, if_neg (by omega)]

/-- The token is read as that integer, or as a whole it is no number if 64 bits do not hold the
integer. -/
structure ReadExactly (token : List Char) (value : Int) : Prop where
  held : ∀ z : Int64, z.toInt = value → Reader.numberOfToken token = .ok (.int z)
  refused : value < -2 ^ 63 ∨ 2 ^ 63 ≤ value →
    Reader.numberOfToken token = .error (.fault (.numberFormat (String.ofList token)))

theorem readExactly_of_read {token : List Char} {sign : Sign}
    (h : Literal.read token = (int64OfMagnitude sign.isMinus m).map .int) :
    ReadExactly token (sign.apply m) where
  held z hz := by
    rw [Reader.numberOfToken, h, int64OfMagnitude_of_toInt hz]
    rfl
  refused hrange := by
    rw [Reader.numberOfToken, h, int64OfMagnitude_of_out_of_range hrange]
    rfl

/-! ## 4. Spellings of integers -/

/-- The second text is the first one with underscores put in, at its ends too. -/
inductive Spaced : List Char → List Char → Prop
  | nil : Spaced [] []
  | keep {digits text : List Char} (c : Char) (h : Spaced digits text) :
      Spaced (c :: digits) (c :: text)
  | insert {digits text : List Char} (h : Spaced digits text) : Spaced digits ('_' :: text)

def baseLetters : List (Nat × Char) :=
  [(16, 'x'), (16, 'X'), (2, 'b'), (2, 'B'), (8, 'o'), (8, 'O')]

/-- The text writes the natural number. -/
inductive Spelling : List Char → Nat → Prop
  /-- Decimal digits, the first of which is a zero only if it is the only one. -/
  | decimal {first : Char} {digits text : List Char} {m : Nat}
      (hdigits : Numeral 10 (first :: digits) m) (hzero : first = '0' → digits = [])
      (hspaced : Spaced digits text) : Spelling (first :: text) m
  /-- A zero and octal digits. -/
  | octal {digits text : List Char} {m : Nat} (hdigits : Numeral 8 digits m)
      (hspaced : Spaced digits text) : Spelling ('0' :: text) m
  /-- A zero, the letter of a base, and digits in that base. -/
  | prefixed {base : Nat} {letter : Char} {digits text : List Char} {m : Nat}
      (hletter : (base, letter) ∈ baseLetters) (hdigits : Numeral base digits m)
      (hspaced : Spaced digits text) : Spelling ('0' :: letter :: text) m

theorem Spaced.mem {digits : List Char} (h : Spaced digits text) :
    ∀ c ∈ text, c = '_' ∨ c ∈ digits := by
  induction h with
  | nil => simp
  | keep d _ ih =>
    intro c hc
    rcases List.mem_cons.mp hc with rfl | hc
    · exact .inr List.mem_cons_self
    · exact (ih c hc).imp_right (List.mem_cons_of_mem d)
  | insert _ ih =>
    intro c hc
    rcases List.mem_cons.mp hc with rfl | hc
    · exact .inl rfl
    · exact ih c hc

theorem Spaced.filter_eq {digits : List Char} (h : Spaced digits text)
    (hdigits : ∀ c ∈ digits, c ≠ '_') : text.filter (· ≠ '_') = digits := by
  induction h with
  | nil => rfl
  | keep c _ ih =>
    obtain ⟨hc, hrest⟩ := List.forall_mem_cons.mp hdigits
    rw [List.filter_cons_of_pos (by simpa using hc), ih hrest]
  | insert _ ih => rw [List.filter_cons_of_neg (by simp), ih hdigits]

theorem spaced_filter (text : List Char) : Spaced (text.filter (· ≠ '_')) text := by
  induction text with
  | nil => exact .nil
  | cons c rest ih =>
    by_cases hc : c = '_'
    · subst hc
      rw [List.filter_cons_of_neg (by simp)]
      exact .insert ih
    · rw [List.filter_cons_of_pos (by simpa using hc)]
      exact .keep c ih

theorem Numeral.ne_underscore (h : Numeral base text m) : ∀ c ∈ text, c ≠ '_' := fun c hc =>
  of_decide_eq_true (h.forall_mem_of_digit (fun c => decide (c ≠ '_')) (by decide) c hc)

theorem basePrefix_eq_decimal {digits : List Char} (h : ∀ c rest, digits ≠ '0' :: c :: rest) :
    Literal.basePrefix digits = (10, digits) := by
  unfold Literal.basePrefix
  split
  all_goals first
    | exact absurd rfl (h _ _)
    | rfl

theorem basePrefix_eq_octal {rest : List Char} (hc : c ∉ baseLetters.map Prod.snd) :
    Literal.basePrefix ('0' :: c :: rest) = (8, c :: rest) := by
  unfold Literal.basePrefix
  split <;> simp_all [baseLetters]

theorem basePrefix_eq_prefixed {letter : Char} {digits : List Char}
    (hletter : (base, letter) ∈ baseLetters) :
    Literal.basePrefix ('0' :: letter :: digits) = (base, digits) := by
  simp only [baseLetters, List.mem_cons, Prod.mk.injEq, List.not_mem_nil, or_false] at hletter
  rcases hletter with
    ⟨rfl, rfl⟩ | ⟨rfl, rfl⟩ | ⟨rfl, rfl⟩ | ⟨rfl, rfl⟩ | ⟨rfl, rfl⟩ | ⟨rfl, rfl⟩ <;> rfl

/-- What is left of a spelling without its underscores names a base, and the rest is a numeral in
that base. -/
theorem Spelling.exists_basePrefix (h : Spelling body m) :
    ∃ base digits, Literal.basePrefix (body.filter (· ≠ '_')) = (base, digits) ∧
      Numeral base digits m := by
  cases h with
  | @decimal first digits text _ hdigits hzero hspaced =>
    obtain ⟨hfirst, hrest⟩ := List.forall_mem_cons.mp hdigits.ne_underscore
    refine ⟨10, first :: digits, ?_, hdigits⟩
    rw [List.filter_cons_of_pos (by simpa using hfirst), hspaced.filter_eq hrest]
    apply basePrefix_eq_decimal
    intro c rest hcons
    obtain ⟨rfl, rfl⟩ := List.cons_eq_cons.mp hcons
    cases hzero rfl
  | @octal digits text _ hdigits hspaced =>
    refine ⟨8, digits, ?_, hdigits⟩
    rw [List.filter_cons_of_pos (by decide), hspaced.filter_eq hdigits.ne_underscore]
    obtain ⟨c, rest, rfl⟩ := List.exists_cons_of_ne_nil hdigits.ne_nil
    have hc := hdigits.forall_mem (fun c => decide (c ∉ baseLetters.map Prod.snd)) (by decide) c
      List.mem_cons_self
    exact basePrefix_eq_octal (of_decide_eq_true hc)
  | @prefixed base letter digits text _ hletter hdigits hspaced =>
    have hne : ∀ entry ∈ baseLetters, entry.2 ≠ '_' := by decide
    refine ⟨base, digits, ?_, hdigits⟩
    rw [List.filter_cons_of_pos (by decide),
      List.filter_cons_of_pos (by simpa using hne _ hletter),
      hspaced.filter_eq hdigits.ne_underscore]
    exact basePrefix_eq_prefixed hletter

theorem Spelling.integer_eq (h : Spelling body m) (negative : Bool) :
    Literal.integer negative body = int64OfMagnitude negative m := by
  obtain ⟨base, digits, hnamed, hdigits⟩ := h.exists_basePrefix
  rw [Literal.integer, hnamed]
  show int64OfDigits negative base digits = _
  rw [int64OfDigits, Numeral.iff_natOfDigits.mp hdigits]
  rfl

theorem read_eq_integer {token : List Char} {negative : Bool}
    (hsplit : splitSign token = (negative, body))
    (h : Literal.hasBasePrefix (body.map Char.toLower) = true ∨
      ∀ c ∈ body, c.toLower ∉ ['r', '.', 'e']) :
    Literal.read token = (Literal.integer negative body).map .int := by
  rw [Literal.read, hsplit]
  cases hnamed : Literal.hasBasePrefix (body.map Char.toLower) with
  | true => simp only [hnamed, if_true]
  | false =>
    rw [hnamed] at h
    have hletters := h.resolve_left Bool.false_ne_true
    have hnone : ∀ marker ∈ ['r', '.', 'e'], (body.map Char.toLower).contains marker = false := by
      intro marker hmarker
      rw [← Bool.not_eq_true, List.contains_iff_mem, List.mem_map]
      rintro ⟨c, hc, rfl⟩
      exact hletters c hc hmarker
    have hr := hnone 'r' (by decide)
    have hpoint := hnone '.' (by decide)
    have he := hnone 'e' (by decide)
    simp only [hnamed, hr, hpoint, he, Bool.false_eq_true, if_false, Bool.or_self, Bool.and_self]

theorem toLower_of_isDigit (h : Text.isDigit c = true) : c.toLower = c := by
  have hdecimal : IsDecimal [c] := by simpa [IsDecimal] using h
  simpa using hdecimal.plain.map_toLower

theorem Spelling.shape (h : Spelling body m) :
    (∃ c rest, body = c :: rest ∧ Text.isDigit c = true) ∧
      (Literal.hasBasePrefix (body.map Char.toLower) = true ∨
        ∀ c ∈ body, c = '_' ∨ Text.isDigit c = true) := by
  cases h with
  | @decimal first digits text _ hdigits hzero hspaced =>
    obtain ⟨hfirst, hrest⟩ := List.forall_mem_cons.mp (hdigits.forall_mem Text.isDigit (by decide))
    refine ⟨⟨first, text, rfl, hfirst⟩, .inr (List.forall_mem_cons.mpr ⟨.inr hfirst, ?_⟩)⟩
    exact fun c hc => (hspaced.mem c hc).imp_right (hrest c)
  | @octal digits text _ hdigits hspaced =>
    have hrest := hdigits.forall_mem Text.isDigit (by decide)
    refine ⟨⟨'0', text, rfl, by decide⟩, .inr (List.forall_mem_cons.mpr ⟨.inr (by decide), ?_⟩)⟩
    exact fun c hc => (hspaced.mem c hc).imp_right (hrest c)
  | @prefixed base letter digits text _ hletter hdigits hspaced =>
    have hall : ∀ entry ∈ baseLetters, Literal.hasBasePrefix ['0', entry.2.toLower] = true := by
      decide
    exact ⟨⟨'0', _, rfl, by decide⟩, .inl (hall _ hletter)⟩

theorem Spelling.read_eq (h : Spelling body m) (sign : Sign) :
    Literal.read (sign.chars ++ body) = (int64OfMagnitude sign.isMinus m).map .int := by
  obtain ⟨hfirst, hletters⟩ := h.shape
  rw [read_eq_integer (sign.splitSign_append hfirst), h.integer_eq]
  refine hletters.imp_right fun hall c hc hmarker => ?_
  rcases hall c hc with rfl | hdigit
  · revert hmarker
    decide
  · rw [toLower_of_isDigit hdigit] at hmarker
    simp only [List.mem_cons, List.not_mem_nil, or_false] at hmarker
    rcases hmarker with rfl | rfl | rfl <;> cases hdigit

/-- A spelling behind a sign or none is read as the integer that it writes: nothing wraps, and the
base and the kind are those of the spelling.  If 64 bits do not hold the integer, the token is
refused as it stands. -/
theorem integer_spelling_exact (sign : Sign) (h : Spelling body m) :
    ReadExactly (sign.chars ++ body) (sign.apply m) :=
  readExactly_of_read (h.read_eq sign)

/-- The least integer in hexadecimal; without its sign it is one more than the greatest. -/
theorem integer_spelling_exact_least :
    Spelling "0X8000_0000_0000_0000_".toList (2 ^ 63) ∧
    Reader.numberOfToken "-0X8000_0000_0000_0000_".toList = .ok (.int Int64.minValue) ∧
    Reader.numberOfToken "+0X8000_0000_0000_0000_".toList =
      .error (.fault (.numberFormat "+0X8000_0000_0000_0000_")) := by
  have hdigits : Numeral 16 "8000000000000000".toList (2 ^ 63) :=
    Numeral.iff_natOfDigits.mpr (by decide)
  have hspelling : Spelling "0X8000_0000_0000_0000_".toList (2 ^ 63) :=
    .prefixed (by decide) hdigits (spaced_filter "8000_0000_0000_0000_".toList)
  refine ⟨hspelling, ?_, ?_⟩
  · exact (integer_spelling_exact .minus hspelling).held Int64.minValue (by decide)
  · exact (integer_spelling_exact .plus hspelling).refused (.inr (by decide))

end Lisp.Number
