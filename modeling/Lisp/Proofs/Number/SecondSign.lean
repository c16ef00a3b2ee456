import Lisp.Proofs.Number.Signs

/-!
# Tokens with two signs

A sign is no digit, so what is read behind a sign refuses another one: the digits of an integer, the
base of a radix integer, and a decimal.  One way around this is left, `PlusBefore`: a mantissa in
scientific notation is read with the sign of its token, of which a plus is dropped, so there the next
sign is the first.  Every other token that starts with two signs is refused.
-/

namespace Lisp.Number

variable {c d : Char} {text rest front token : List Char} {negative : Bool} {x : Float}

def IsSign (c : Char) : Prop := c = '+' ∨ c = '-'

/-! ## 1. Texts by the way they start -/

theorem splitSign_sign (hc : IsSign c) (text : List Char) :
    splitSign (c :: text) = (decide (c = '-'), text) := by
  rcases hc with rfl | rfl <;> rfl

theorem exists_splitAt_append {isSeparator : Char → Bool}
    (hfront : ∀ k ∈ front, isSeparator k = false) (text : List Char) :
    ∃ part parts, splitAt isSeparator (front ++ text) = (front ++ part) :: parts := by
  induction front with
  | nil =>
    obtain ⟨part, parts, htext, -, -⟩ := exists_splitAt_eq_cons isSeparator text
    exact ⟨part, parts, htext⟩
  | cons k front ih =>
    obtain ⟨hk, hfront⟩ := List.forall_mem_cons.mp hfront
    obtain ⟨part, parts, hsplit⟩ := ih hfront
    obtain ⟨_, _, hsame, hcons, -⟩ := exists_splitAt_eq_cons isSeparator (front ++ text)
    rw [hsplit] at hsame
    obtain ⟨rfl, rfl⟩ := List.cons.inj hsame
    exact ⟨part, parts, hcons k hk⟩

theorem natOfDigits_sign (base : Nat) (hc : IsSign c) (text : List Char) :
    natOfDigits base (c :: text) = none := by
  have hdigit : digitValue c = none := by rcases hc with rfl | rfl <;> rfl
  simp [natOfDigits, appendDigit, digitIn, hdigit]

theorem decimalMagnitude_of_front (negative : Bool) {front : List Char}
    (hfront : ∀ k ∈ front, decide (k = '.') = false)
    (hdigits : ∀ text, natOfDigits 10 (front ++ text) = none) (text : List Char) :
    Literal.decimalMagnitude negative (front ++ text) = none := by
  obtain ⟨part, parts, hsplit⟩ := exists_splitAt_append hfront text
  unfold Literal.decimalMagnitude
  rw [hsplit]
  match parts with
  | [] => simp only [hdigits, Option.map_none]
  | [fraction] => simp only [List.append_assoc, hdigits, Option.map_none]
  | _ :: _ :: _ => rfl

theorem decimal_eq_magnitude (hsplit : splitSign text = (negative, c :: rest))
    (hc : c.toNat < 65) :
    Literal.decimal text = Literal.decimalMagnitude negative (c :: rest) := by
  have hlower : c.toLower = c := by
    rcases toLower_cases c with hsame | hupper
    · exact hsame
    · omega
  have hname : ∀ name : String, (∀ k ∈ name.toList.head?, 65 ≤ k.toNat) →
      String.ofList ((c :: rest).map Char.toLower) ≠ name := by
    rintro name hletter rfl
    rw [String.toList_ofList, List.map_cons, hlower] at hletter
    exact absurd (hletter c rfl) (Nat.not_le_of_lt hc)
  have hinf := hname "inf" (by simp)
  have hinfinity := hname "infinity" (by simp)
  have hnan := hname "nan" (by simp)
  simp only [Literal.decimal, hsplit, hinf, hinfinity, hnan, decide_false, Bool.or_self,
    Bool.false_eq_true, if_false]

theorem scientific_of_front (negative : Bool) {front : List Char}
    (hfront : ∀ k ∈ front, decide (k = 'e') = false)
    (hmantissa : ∀ text, Literal.decimal
      (if negative then '-' :: (front ++ text) else front ++ text) = none) (text : List Char) :
    Literal.scientific negative (front ++ text) = none := by
  obtain ⟨part, parts, hsplit⟩ := exists_splitAt_append hfront text
  unfold Literal.scientific
  rw [hsplit]
  match parts with
  | [] => rfl
  | [e] => simp only [hmantissa]
  | _ :: _ :: _ => rfl

/-! ## 2. A second sign in each notation -/

theorem forall_mem_signs {signs : List Char} (hsigns : ∀ k ∈ signs, IsSign k) (test : Char → Bool)
    (hplus : test '+' = false) (hminus : test '-' = false) : ∀ k ∈ signs, test k = false := by
  intro k hk
  rcases hsigns k hk with rfl | rfl
  · exact hplus
  · exact hminus

theorem integer_sign (negative : Bool) (hc : IsSign c) (text : List Char) :
    Literal.integer negative (c :: text) = none := by
  have hfilter : (c :: text).filter (· ≠ '_') = c :: text.filter (· ≠ '_') := by
    rcases hc with rfl | rfl <;> rfl
  have hbase : ∀ digits, Literal.basePrefix (c :: digits) = (10, c :: digits) := by
    rcases hc with rfl | rfl <;> exact fun _ => rfl
  simp only [Literal.integer, hfilter, hbase, int64OfDigits, natOfDigits_sign 10 hc,
    Option.bind_none]

theorem decimalInteger_two_signs (hc : IsSign c) (hd : IsSign d) (text : List Char) :
    decimalInteger (c :: d :: text) = none := by
  rw [decimalInteger, splitSign_sign hc]
  simp only [natOfDigits_sign 10 hd]
  rfl

theorem radixInteger_two_signs (hc : IsSign c) (hd : IsSign d) (text : List Char) :
    Literal.radixInteger (c :: d :: text) = none := by
  have hsigns : ∀ k ∈ [c, d], IsSign k := by simp [hc, hd]
  obtain ⟨part, parts, hsplit⟩ :=
    exists_splitAt_append (forall_mem_signs hsigns (fun k => k = 'r' || k = 'R') rfl rfl) text
  unfold Literal.radixInteger
  rw [show c :: d :: text = [c, d] ++ text from rfl, hsplit]
  match parts with
  | [] => rfl
  | [digits] => simp only [List.cons_append, decimalInteger_two_signs hc hd]
  | _ :: _ :: _ => rfl

theorem decimal_two_signs (hc : IsSign c) (hd : IsSign d) (text : List Char) :
    Literal.decimal (c :: d :: text) = none := by
  have hcode : d.toNat < 65 := by rcases hd with rfl | rfl <;> decide
  have hsigns : ∀ k ∈ [d], IsSign k := by simp [hd]
  rw [decimal_eq_magnitude (splitSign_sign hc (d :: text)) hcode]
  exact decimalMagnitude_of_front _ (forall_mem_signs hsigns (· = '.') rfl rfl)
    (natOfDigits_sign 10 hd) text

theorem scientific_minus_sign (hc : IsSign c) (text : List Char) :
    Literal.scientific true (c :: text) = none := by
  have hsigns : ∀ k ∈ [c], IsSign k := by simp [hc]
  exact scientific_of_front true (forall_mem_signs hsigns (· = 'e') rfl rfl)
    (decimal_two_signs (.inr rfl) hc) text

theorem scientific_two_signs (hc : IsSign c) (hd : IsSign d) (text : List Char) :
    Literal.scientific false (c :: d :: text) = none := by
  have hsigns : ∀ k ∈ [c, d], IsSign k := by simp [hc, hd]
  exact scientific_of_front false (forall_mem_signs hsigns (· = 'e') rfl rfl)
    (decimal_two_signs hc hd) text

theorem scientific_sign (hc : IsSign c) (h : Unsigned text) :
    Literal.scientific false (c :: text) = Literal.scientific (decide (c = '-')) text := by
  have hletter : decide (c = 'e') = false := by rcases hc with rfl | rfl <;> rfl
  obtain ⟨part, parts, htext, hcons, hpart⟩ := exists_splitAt_eq_cons (· = 'e') text
  unfold Literal.scientific
  rw [htext, hcons c hletter]
  match parts with
  | [] => rfl
  | _ :: _ :: _ => rfl
  | [e] =>
    rcases hc with rfl | rfl
    · simp only [Bool.false_eq_true, if_false, decimal_plus (hpart h)]
      rfl
    · rfl

theorem scientific_of_hasBasePrefix (negative : Bool) (h : Literal.hasBasePrefix text = true) :
    Literal.scientific negative text = none := by
  unfold Literal.hasBasePrefix at h
  split at h
  · rename_i k rest
    have hk : k = 'x' ∨ k = 'b' ∨ k = 'o' := by simpa [or_assoc] using h
    have hdigits : ∀ rest, natOfDigits 10 ('0' :: k :: rest) = none := by
      intro rest
      have hletter : digitIn 10 k = none := by rcases hk with rfl | rfl | rfl <;> rfl
      have hzero : digitIn 10 '0' = some 0 := rfl
      simp [natOfDigits, appendDigit, hletter, hzero]
    have hletters : ∀ letter : Char, letter = '.' ∨ letter = 'e' →
        ∀ c ∈ ['0', k], decide (c = letter) = false := by
      rintro letter (rfl | rfl) <;> rcases hk with rfl | rfl | rfl <;> simp
    have hdecimal : ∀ (negative : Bool) (text rest : List Char),
        splitSign text = (negative, '0' :: k :: rest) → Literal.decimal text = none := by
      intro negative text rest hsplit
      rw [decimal_eq_magnitude hsplit (by decide)]
      exact decimalMagnitude_of_front negative (hletters '.' (.inl rfl)) hdigits rest
    refine scientific_of_front negative (hletters 'e' (.inr rfl)) (fun rest => ?_) rest
    cases negative with
    | true => exact hdecimal true _ rest rfl
    | false => exact hdecimal false _ rest rfl
  · cases h

/-! ## 3. Tokens -/

/-- Behind the first sign only the letter of an exponent keeps a token from being refused. -/
theorem read_two_signs (hc : IsSign c) (hd : IsSign d) (rest : List Char) :
    Literal.read (c :: d :: rest) =
      if (rest.map Char.toLower).contains 'e' && !(rest.map Char.toLower).contains 'r' then
        (Literal.scientific (decide (c = '-')) (d :: rest.map Char.toLower)).map .float
      else none := by
  have hlower : (d :: rest).map Char.toLower = d :: rest.map Char.toLower := by
    rcases hd with rfl | rfl <;> rfl
  have hprefix : ∀ text, Literal.hasBasePrefix (d :: text) = false := by
    rcases hd with rfl | rfl <;> exact fun _ => rfl
  have hcontains : ∀ letter, ¬ IsSign letter → ∀ text : List Char,
      (d :: text).contains letter = text.contains letter := by
    intro letter hletter text
    have hne : letter ≠ d := fun heq => hletter (heq ▸ hd)
    simp [hne]
  simp only [Literal.read, splitSign_sign hc, hlower, hprefix,
    hcontains 'r' (by simp [IsSign]), hcontains 'e' (by simp [IsSign]),
    hcontains '.' (by simp [IsSign]), integer_sign _ hd, decimal_two_signs hc hd,
    radixInteger_two_signs hc hd, Bool.false_eq_true, if_false, Option.map_none]
  cases (rest.map Char.toLower).contains 'r' <;> cases (rest.map Char.toLower).contains 'e' <;>
    simp

theorem read_sign_eq_float_iff (hd : IsSign d) (h : Unsigned rest)
    (he : (rest.map Char.toLower).contains 'e' = true) :
    Literal.read (d :: rest) = some (.float x) ↔
      (rest.map Char.toLower).contains 'r' = false ∧
        Literal.scientific false (d :: rest.map Char.toLower) = some x := by
  rw [Literal.read, splitSign_sign hd, scientific_sign hd h.map_toLower]
  simp only [he, Bool.or_true, Bool.and_true, if_true]
  cases hprefix : Literal.hasBasePrefix (rest.map Char.toLower) with
  | true => simp [scientific_of_hasBasePrefix _ hprefix]
  | false => cases (rest.map Char.toLower).contains 'r' <;> simp

/-- A plus in front of a signed token in scientific notation, which is read as `x`. -/
inductive PlusBefore : List Char → Float → Prop
  | mk {d : Char} {rest : List Char} {x : Float} (hd : IsSign d) (unsigned : Unsigned rest)
      (letter : 'e' ∈ rest ∨ 'E' ∈ rest)
      (means : Reader.numberOfToken (d :: rest) = .ok (.float x)) : PlusBefore ('+' :: d :: rest) x

theorem contains_lower_e_iff :
    (text.map Char.toLower).contains 'e' = true ↔ 'e' ∈ text ∨ 'E' ∈ text := by
  rw [List.contains_iff_mem, List.mem_map]
  constructor
  · rintro ⟨c, hc, hlower⟩
    rcases toLower_eq_e_iff.mp hlower with rfl | rfl
    · exact .inl hc
    · exact .inr hc
  · rintro (hc | hc)
    · exact ⟨'e', hc, rfl⟩
    · exact ⟨'E', hc, rfl⟩

theorem numberOfToken_eq_float_iff :
    Reader.numberOfToken token = .ok (.float x) ↔ Literal.read token = some (.float x) := by
  unfold Reader.numberOfToken
  split <;> simp_all

theorem exists_sign_of_not_unsigned (h : ¬ Unsigned text) :
    ∃ k tail, IsSign k ∧ text = k :: tail := by
  cases text with
  | nil => exact absurd unsigned_nil h
  | cons k tail =>
    refine ⟨k, tail, ?_, rfl⟩
    by_contra hk
    refine h fun c hc => ?_
    cases hc
    exact not_or.mp hk

theorem plusBefore_iff_read (hc : IsSign c) (hd : IsSign d) :
    PlusBefore (c :: d :: rest) x ↔ Literal.read (c :: d :: rest) = some (.float x) := by
  rw [read_two_signs hc hd]
  constructor
  · intro h
    cases h with
    | mk _ hunsigned hletter hmeans =>
      have he := contains_lower_e_iff.mpr hletter
      obtain ⟨hr, hscientific⟩ :=
        (read_sign_eq_float_iff hd hunsigned he).mp (numberOfToken_eq_float_iff.mp hmeans)
      have hplus : decide ('+' = '-') = false := rfl
      simp only [he, hr, hplus, hscientific, Bool.not_false, Bool.and_self, if_true,
        Option.map_some]
  · intro h
    split at h
    · rename_i hletters
      obtain ⟨he, hr⟩ := Bool.and_eq_true_iff.mp hletters
      obtain ⟨y, hscientific, hy⟩ := Option.map_eq_some_iff.mp h
      cases hy
      rcases hc with rfl | rfl
      · have hunsigned : Unsigned rest := by
          by_contra hsigned
          -- Then the mantissa has two signs of its own.
          obtain ⟨k, tail, hk, rfl⟩ := exists_sign_of_not_unsigned hsigned
          have hlower : k.toLower = k := by rcases hk with rfl | rfl <;> rfl
          rw [List.map_cons, hlower] at hscientific
          exact absurd ((scientific_two_signs hd hk _).symm.trans hscientific) (by simp)
        have hread := (read_sign_eq_float_iff hd hunsigned he).mpr
          ⟨Bool.not_eq_true' _ ▸ hr, hscientific⟩
        exact .mk hd hunsigned (contains_lower_e_iff.mp he) (numberOfToken_eq_float_iff.mpr hread)
      · exact absurd ((scientific_minus_sign hd _).symm.trans hscientific) (by simp)
    · cases h

theorem read_two_signs_cases (hc : IsSign c) (hd : IsSign d) (rest : List Char) :
    Literal.read (c :: d :: rest) = none ∨
      ∃ x, Literal.read (c :: d :: rest) = some (.float x) := by
  rw [read_two_signs hc hd]
  split
  · cases Literal.scientific (decide (c = '-')) (d :: rest.map Char.toLower) with
    | none => exact .inl rfl
    | some x => exact .inr ⟨x, rfl⟩
  · exact .inl rfl

/-- A token that starts with two signs is refused as it stands, unless the first one is a plus in front
of a signed token in scientific notation: then it means what that token means. -/
theorem second_sign_refused (hc : IsSign c) (hd : IsSign d) (rest : List Char) :
    (Reader.numberOfToken (c :: d :: rest) = .error (formatError (c :: d :: rest)) ↔
      ¬ ∃ x, PlusBefore (c :: d :: rest) x) ∧
    ∀ v, Reader.numberOfToken (c :: d :: rest) = .ok v ↔
      ∃ x, v = .float x ∧ PlusBefore (c :: d :: rest) x := by
  simp only [plusBefore_iff_read hc hd, Reader.numberOfToken]
  rcases read_two_signs_cases hc hd rest with hread | ⟨x, hread⟩
  · simp [hread, formatError]
  · simp [hread, eq_comm]

/-- The mantissa has a sign behind the plus. -/
theorem second_sign_read_behind_plus :
    Reader.numberOfToken "+-1e5".toList = .ok (.float (-100000.0)) := by
  rfl

theorem second_sign_refused_behind_minus :
    IsSign '+' ∧ IsSign '-' ∧
    Reader.numberOfToken "-+1e5".toList = .error (.fault (.numberFormat "-+1e5")) ∧
    PlusBefore "+-1e5".toList (-100000.0) ∧
    Reader.numberOfToken "+-1e5".toList = .ok (.float (-100000.0)) := by
  have hplus : IsSign '+' := .inl rfl
  have hminus : IsSign '-' := .inr rfl
  have hunsigned : Unsigned "1e5".toList := by simp [Unsigned]
  have hbefore : PlusBefore ('+' :: '-' :: "1e5".toList) (-100000.0) :=
    .mk hminus hunsigned (.inl (by decide)) (by rfl)
  refine ⟨hplus, hminus, ?_, hbefore, ?_⟩
  · refine (second_sign_refused hminus hplus "1e5".toList).1.mpr ?_
    rintro ⟨x, hx⟩
    cases hx
  · exact ((second_sign_refused hplus hminus "1e5".toList).2 _).mpr ⟨_, rfl, hbefore⟩

end Lisp.Number
