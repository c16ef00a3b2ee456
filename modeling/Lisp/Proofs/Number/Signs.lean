import Lisp.Proofs.Number.Doubles
import Lisp.Proofs.Number.Numeral
import Lisp.Reader.Basic

/-!
# Signs in front of a token

Every notation treats a sign in its own way: an integer is read behind it, a base and a mantissa are
read with it.  In all of them a plus changes nothing and a minus negates, `read_plus` and
`negates_read`, whatever the token is.  The least integer has a magnitude of its own: it is the one
number that is read behind a minus only.
-/

namespace Lisp.Number

variable {text token : List Char} {m : Nat} {n : Int64}

/-! ## 1. Texts without a sign -/

def Unsigned (text : List Char) : Prop := ∀ c ∈ text.head?, c ≠ '+' ∧ c ≠ '-'

theorem unsigned_nil : Unsigned [] := by
  intro c hc
  cases hc

theorem Unsigned.splitSign_eq (h : Unsigned text) : splitSign text = (false, text) := by
  unfold splitSign
  split
  · exact absurd rfl (h _ rfl).2
  · exact absurd rfl (h _ rfl).1
  · rfl

theorem toLower_cases (c : Char) :
    c.toLower = c ∨ 65 ≤ c.toNat ∧ c.toNat ≤ 90 ∧ c.toLower.toNat = c.toNat + 32 := by
  by_cases hupper : c.val ≥ 'A'.val ∧ c.val ≤ 'Z'.val
  · right
    have hlow : 65 ≤ c.toNat := UInt32.le_iff_toNat_le.mp hupper.1
    have hhigh : c.toNat ≤ 90 := UInt32.le_iff_toNat_le.mp hupper.2
    have hvalue : c.toLower.toNat = (c.toNat + 32) % 2 ^ 32 := by
      rw [Char.toLower, dif_pos hupper]
      exact UInt32.toNat_add c.val 32
    omega
  · left
    rw [Char.toLower, dif_neg hupper]

theorem toLower_eq_self {c : Char} (h : c.toLower.toNat < 97) : c.toLower = c := by
  rcases toLower_cases c with hsame | hupper
  · exact hsame
  · omega

theorem toLower_eq_e_iff {c : Char} : c.toLower = 'e' ↔ c = 'e' ∨ c = 'E' := by
  constructor
  · intro h
    rcases toLower_cases c with hsame | ⟨-, -, hvalue⟩
    · exact .inl (hsame.symm.trans h)
    · right
      rw [h] at hvalue
      replace hvalue : 101 = c.toNat + 32 := hvalue
      rw [← Char.toNat_inj]
      show c.toNat = 69
      omega
  · rintro (rfl | rfl) <;> decide

theorem Unsigned.map_toLower (h : Unsigned text) : Unsigned (text.map Char.toLower) := by
  intro d hd
  rw [List.head?_map] at hd
  obtain ⟨c, hc, rfl⟩ := Option.mem_map.mp hd
  have hsame : ∀ sign : Char, sign.toNat < 97 → c.toLower = sign → c = sign := by
    rintro sign hsign rfl
    exact (toLower_eq_self hsign).symm
  exact ⟨fun hplus => (h c hc).1 (hsame '+' (by decide) hplus),
    fun hminus => (h c hc).2 (hsame '-' (by decide) hminus)⟩

theorem exists_splitAt_eq_cons (isSeparator : Char → Bool) (text : List Char) :
    ∃ part parts, splitAt isSeparator text = part :: parts ∧
      (∀ c, isSeparator c = false → splitAt isSeparator (c :: text) = (c :: part) :: parts) ∧
      (Unsigned text → Unsigned part) := by
  have hcons : ∀ text part parts, splitAt isSeparator text = part :: parts → ∀ c,
      isSeparator c = false → splitAt isSeparator (c :: text) = (c :: part) :: parts := by
    intro text part parts htext c hc
    rw [splitAt, hc, htext]
    rfl
  induction text with
  | nil => exact ⟨[], [], rfl, hcons [] [] [] rfl, id⟩
  | cons d rest ih =>
    obtain ⟨part, parts, hrest, hbefore, -⟩ := ih
    cases hd : isSeparator d with
    | true =>
      have htext : splitAt isSeparator (d :: rest) = [] :: part :: parts := by
        rw [splitAt, hd, hrest]
        rfl
      exact ⟨[], _, htext, hcons _ _ _ htext, fun _ => unsigned_nil⟩
    | false => exact ⟨d :: part, parts, hbefore d hd, hcons _ _ _ (hbefore d hd), id⟩

/-! ## 2. A minus negates -/

/-- The second answer is the first one negated.  Two integers come from one magnitude, which may be
held by one of them alone. -/
inductive Negates : Option Literal → Option Literal → Prop
  | refused : Negates none none
  | int (m : Nat) :
      Negates ((int64OfMagnitude false m).map .int) ((int64OfMagnitude true m).map .int)
  | float (x : Float) : Negates (some (.float x)) (some (.float (-x)))

theorem negates_digits (base : Nat) (digits : List Char) :
    Negates ((int64OfDigits false base digits).map .int)
      ((int64OfDigits true base digits).map .int) := by
  unfold int64OfDigits
  cases natOfDigits base digits with
  | none => exact .refused
  | some m => exact .int m

theorem negates_integer (body : List Char) :
    Negates ((Literal.integer false body).map .int) ((Literal.integer true body).map .int) :=
  negates_digits _ _

theorem Negates.of_map {x y : Option Float} (h : y = x.map (-·)) :
    Negates (x.map .float) (y.map .float) := by
  subst h
  cases x with
  | none => exact .refused
  | some x => exact .float x

theorem decimalInteger_plus (h : Unsigned text) :
    decimalInteger ('+' :: text) = decimalInteger text := by
  rw [decimalInteger, decimalInteger, h.splitSign_eq]
  rfl

theorem decimalInteger_minus (h : Unsigned text) :
    decimalInteger ('-' :: text) = (decimalInteger text).map (-·) := by
  rw [decimalInteger, decimalInteger, h.splitSign_eq]
  simp only [splitSign]
  cases natOfDigits 10 text with
  | none => rfl
  | some n => rfl

theorem decimalInteger_nonneg (h : Unsigned text) {value : Int}
    (hvalue : decimalInteger text = some value) : 0 ≤ value := by
  rw [decimalInteger, h.splitSign_eq] at hvalue
  cases hdigits : natOfDigits 10 text with
  | none =>
    simp only [hdigits] at hvalue
    cases hvalue
  | some n =>
    simp only [hdigits] at hvalue
    cases hvalue
    exact Int.natCast_nonneg n

theorem radixInteger_signed (h : Unsigned text) :
    Literal.radixInteger ('+' :: text) = Literal.radixInteger text ∧
      Negates ((Literal.radixInteger text).map .int)
        ((Literal.radixInteger ('-' :: text)).map .int) := by
  obtain ⟨part, parts, htext, hcons, hpart⟩ :=
    exists_splitAt_eq_cons (fun c => c = 'r' || c = 'R') text
  unfold Literal.radixInteger
  rw [htext, hcons '+' (by decide), hcons '-' (by decide)]
  match parts with
  | [] => exact ⟨rfl, .refused⟩
  | _ :: _ :: _ => exact ⟨rfl, .refused⟩
  | [digits] =>
    simp only [decimalInteger_plus (hpart h), decimalInteger_minus (hpart h), true_and]
    cases hbase : decimalInteger part with
    | none => exact .refused
    | some base =>
      have hnonneg := decimalInteger_nonneg (hpart h) hbase
      simp only [Option.map_some, Int.natAbs_neg]
      split
      · rename_i hrange
        rw [decide_eq_false (by omega), decide_eq_true (by omega)]
        exact negates_digits _ _
      · exact .refused

theorem decimalMagnitude_true (body : List Char) :
    Literal.decimalMagnitude true body = (Literal.decimalMagnitude false body).map (-·) := by
  have hnearest : ∀ n d, Binary64.nearest true n d = -Binary64.nearest false n d :=
    fun _ _ => rfl
  unfold Literal.decimalMagnitude
  split
  · rw [Option.map_map]
    exact Option.map_congr fun _ _ => hnearest _ _
  · rw [Option.map_map]
    exact Option.map_congr fun _ _ => hnearest _ _
  · rfl

theorem decimal_plus (h : Unsigned text) : Literal.decimal ('+' :: text) = Literal.decimal text := by
  rw [Literal.decimal, Literal.decimal, h.splitSign_eq]
  rfl

theorem decimal_minus (h : Unsigned text) :
    Literal.decimal ('-' :: text) = (Literal.decimal text).map (-·) := by
  rw [Literal.decimal, Literal.decimal, h.splitSign_eq]
  simp only [splitSign, decimalMagnitude_true]
  split
  · rw [Option.map_some]
    exact congrArg some (by decide)
  · split
    · rw [Option.map_some]
      exact congrArg some (by decide)
    · rfl

theorem scientific_true (h : Unsigned text) :
    Literal.scientific true text = (Literal.scientific false text).map (-·) := by
  obtain ⟨mantissa, parts, htext, -, hmantissa⟩ := exists_splitAt_eq_cons (· = 'e') text
  unfold Literal.scientific
  rw [htext]
  match parts with
  | [] => rfl
  | _ :: _ :: _ => rfl
  | [e] =>
    simp only [if_true, Bool.false_eq_true, if_false, decimal_minus (hmantissa h)]
    cases Literal.decimal mantissa with
    | none => rfl
    | some m =>
      cases Literal.exponent e with
      | none => rfl
      | some e => exact congrArg some (Binary64.neg_mul m (Literal.powerOfTen e))

/-! ## 3. Tokens -/

theorem read_plus (h : Unsigned token) : Literal.read ('+' :: token) = Literal.read token := by
  rw [Literal.read, Literal.read, h.splitSign_eq]
  simp only [splitSign, decimal_plus h, (radixInteger_signed h).1]

theorem negates_read (h : Unsigned token) :
    Negates (Literal.read token) (Literal.read ('-' :: token)) := by
  rw [Literal.read, Literal.read, h.splitSign_eq]
  simp only [splitSign]
  -- The choice of the notation does not depend on the sign.
  split
  · exact negates_integer token
  · split
    · exact .refused
    · split
      · exact .of_map (scientific_true h.map_toLower)
      · split
        · exact .of_map (decimal_minus h)
        · split
          · exact (radixInteger_signed h).2
          · exact negates_integer token

theorem int64OfMagnitude_true (h : int64OfMagnitude false m = some n) :
    ∃ k, int64OfMagnitude true m = some k ∧ k.toInt = -n.toInt := by
  rw [int64OfMagnitude, if_neg Bool.false_ne_true] at h
  split at h
  · rename_i hm
    cases h
    refine ⟨_, by rw [int64OfMagnitude, if_pos rfl, if_pos (Nat.le_of_lt hm)], ?_⟩
    rw [Int64.toInt_ofInt_of_le (by omega) (by omega), Int64.toInt_ofInt_of_le (by omega) (by omega)]
  · cases h

/-- The one magnitude that needs a minus is that of the least integer. -/
theorem int64OfMagnitude_true_of_none (h : int64OfMagnitude false m = none) :
    int64OfMagnitude true m = none ∨ int64OfMagnitude true m = some Int64.minValue := by
  rw [int64OfMagnitude, if_neg Bool.false_ne_true] at h
  split at h
  · cases h
  · rename_i hm
    rw [int64OfMagnitude, if_pos rfl]
    split
    · obtain rfl : m = 2 ^ 63 := by omega
      exact .inr (by decide)
    · exact .inl rfl

def formatError (token : List Char) : Error := .fault (.numberFormat (String.ofList token))

/-- A plus in front of a token changes nothing: the value is the same, or both tokens are refused as
they stand.  A minus negates: an integer, as an integer; a double, not-a-number being its own
negation; and what is refused is refused with it too, unless the minus makes it the least integer. -/
theorem sign_acts_uniformly (h : Unsigned token) :
    ((∃ v, Reader.numberOfToken token = .ok v ∧ Reader.numberOfToken ('+' :: token) = .ok v) ∨
      Reader.numberOfToken token = .error (formatError token) ∧
        Reader.numberOfToken ('+' :: token) = .error (formatError ('+' :: token))) ∧
    (∀ n, Reader.numberOfToken token = .ok (.int n) →
      ∃ k, Reader.numberOfToken ('-' :: token) = .ok (.int k) ∧ k.toInt = -n.toInt) ∧
    (∀ x, Reader.numberOfToken token = .ok (.float x) →
      Reader.numberOfToken ('-' :: token) = .ok (.float (-x)) ∧
        (x.isNaN = true → (-x).isNaN = true)) ∧
    (∀ e, Reader.numberOfToken token = .error e →
      Reader.numberOfToken ('-' :: token) = .error (formatError ('-' :: token)) ∨
        Reader.numberOfToken ('-' :: token) = .ok (.int Int64.minValue)) := by
  have hnegates := negates_read h
  unfold Reader.numberOfToken
  rw [read_plus h]
  generalize Literal.read ('-' :: token) = negated at hnegates
  generalize Literal.read token = literal at hnegates
  cases hnegates with
  | refused => exact ⟨.inr ⟨rfl, rfl⟩, nofun, nofun, fun e he => .inl rfl⟩
  | int m =>
    cases hm : int64OfMagnitude false m with
    | none =>
      refine ⟨.inr ⟨rfl, rfl⟩, nofun, nofun, fun e he => ?_⟩
      rcases int64OfMagnitude_true_of_none hm with hk | hk
      · rw [hk]
        exact .inl rfl
      · rw [hk]
        exact .inr rfl
    | some n =>
      obtain ⟨k, hk, hvalue⟩ := int64OfMagnitude_true hm
      rw [hk]
      refine ⟨.inl ⟨.int n, rfl, rfl⟩, fun n' hn => ?_, nofun, nofun⟩
      cases hn
      exact ⟨k, rfl, hvalue⟩
  | float x =>
    refine ⟨.inl ⟨.float x, rfl, rfl⟩, nofun, fun y hy => ?_, nofun⟩
    cases hy
    exact ⟨rfl, fun hnan => (Binary64.isNaN_neg x).trans hnan⟩

/-- The magnitude of the least integer is refused without its sign and with a plus; a mantissa takes
the sign of its token. -/
theorem sign_acts_uniformly_least :
    Reader.numberOfToken "9223372036854775808".toList =
      .error (.fault (.numberFormat "9223372036854775808")) ∧
    Reader.numberOfToken "+9223372036854775808".toList =
      .error (.fault (.numberFormat "+9223372036854775808")) ∧
    Reader.numberOfToken "-9223372036854775808".toList = .ok (.int Int64.minValue) ∧
    Reader.numberOfToken "-25e-1".toList = .ok (.float (-2.5)) := by
  have hrefused : Reader.numberOfToken "9223372036854775808".toList =
      .error (.fault (.numberFormat "9223372036854775808")) := by rfl
  have hread : Reader.numberOfToken "25e-1".toList = .ok (.float 2.5) := by rfl
  have hunsigned : Unsigned "9223372036854775808".toList ∧ Unsigned "25e-1".toList := by
    simp [Unsigned]
  have hleast := sign_acts_uniformly hunsigned.1
  have hmantissa := sign_acts_uniformly hunsigned.2
  refine ⟨hrefused, ?_, ?_, (hmantissa.2.2.1 _ hread).1⟩
  · rcases hleast.1 with ⟨v, hv, -⟩ | ⟨-, hplus⟩
    · rw [hrefused] at hv
      cases hv
    · exact hplus
  · rcases hleast.2.2.2 _ hrefused with hminus | hminus
    · cases hminus
    · exact hminus

end Lisp.Number
