import Lisp.Proofs.Number.Spelling
import Lisp.Proofs.Reader.Fault

/-!
# Character literals

What stands behind a backslash is a character of any kind and the run behind it.  `Literal` says what
becomes of every such text, and `character_literal_exact` that the reader does just that.

A code is a hexadecimal numeral of any length.  One text that is none is read all the same: a plus in
front of the digits counts for nothing, while a minus or a second plus is refused.
-/

namespace Lisp.Reader

open Grammar (Run isDelimiter Names)
open Number (Numeral natOfDigits)

variable {source : String} {text code input rest : List Char} {c first : Char}
  {result : Except ReadFault Char}

/-! ## 1. What a literal comes to -/

namespace Character

inductive Denotes : List Char → Char → Prop
  /-- A single character stands for itself, also if it is a delimiter. -/
  | itself (c : Char) : Denotes [c] c
  | name {text : List Char} {c : Char} (known : (String.ofList text, c) ∈ Text.characterNames) :
      Denotes text c
  /-- The digits write the code of the character, with any number of zeros in front. -/
  | code {digits : List Char} {c : Char} (value : Numeral 16 digits c.toNat) :
      Denotes ('u' :: digits) c
  | codeBehindPlus {digits : List Char} {c : Char} (value : Numeral 16 digits c.toNat) :
      Denotes ('u' :: '+' :: digits) c

/-- What becomes of a text: the character that it denotes, or a fault that carries the text. -/
inductive Outcome : List Char → Except ReadFault Char → Prop
  | char {text : List Char} {c : Char} (means : Denotes text c) : Outcome text (.ok c)
  | invalidUnicode {run : List Char} (longer : run ≠ [])
      (meaningless : ∀ c, ¬ Denotes ('u' :: run) c) :
      Outcome ('u' :: run) (.error (.invalidUnicode (String.ofList ('u' :: run))))
  | unsupported {text : List Char} (other : text.head? ≠ some 'u')
      (meaningless : ∀ c, ¬ Denotes text c) :
      Outcome text (.error (.unsupportedCharacter (String.ofList text)))

/-- What becomes of a literal by all that stands behind its backslash, and what is left of that. -/
inductive Literal : List Char → Except ReadFault Char → List Char → Prop
  | ending : Literal [] (.error (.unexpectedEnd "character")) []
  | token {first : Char} {run rest : List Char} {result : Except ReadFault Char}
      (whole : Run run rest) (outcome : Outcome (first :: run) result) :
      Literal (first :: (run ++ rest)) result rest

end Character

open Character

/-! ## 2. The text of a literal -/

theorem numeral_toNat_iff :
    Numeral 16 code c.toNat ↔ ∃ n, natOfDigits 16 code = some n ∧
      ∃ h : n.isValidChar, Char.ofNatAux n h = c := by
  rw [Number.Numeral.iff_natOfDigits]
  constructor
  · exact fun hvalue => ⟨c.toNat, hvalue, c.valid, rfl⟩
  · rintro ⟨n, hvalue, h, rfl⟩
    exact hvalue

theorem not_numeral_plus {n : Nat} : ¬ Numeral 16 ('+' :: code) n := fun h =>
  absurd (h.mem_alphabet '+' List.mem_cons_self) (by decide)

/-- The code itself is read by its digits, after a plus that is dropped. -/
theorem scalarOfCode_eq_some_iff :
    scalarOfCode code = some c ↔
      Numeral 16 code c.toNat ∨ ∃ digits, code = '+' :: digits ∧ Numeral 16 digits c.toNat := by
  unfold scalarOfCode
  split
  · rename_i digits
    rw [or_iff_right not_numeral_plus]
    simp only [List.cons.injEq, true_and, exists_eq_left', numeral_toNat_iff]
    cases natOfDigits 16 digits <;> simp
  · rename_i hplus
    rw [or_iff_left fun ⟨digits, hcode, _⟩ => hplus digits hcode, numeral_toNat_iff]
    dsimp only
    cases natOfDigits 16 code <;> simp

theorem denotes_iff_names : Denotes text c ↔ Names text c := by
  constructor
  · intro h
    cases h with
    | itself => exact .itself c
    | name known => exact .name known
    | code value => exact .code (scalarOfCode_eq_some_iff.mpr (.inl value))
    | codeBehindPlus value =>
      exact .code (scalarOfCode_eq_some_iff.mpr (.inr ⟨_, rfl, value⟩))
  · intro h
    cases h with
    | itself => exact .itself c
    | name known => exact .name known
    | code scalar =>
      rcases scalarOfCode_eq_some_iff.mp scalar with value | ⟨digits, rfl, value⟩
      · exact .code value
      · exact .codeBehindPlus value

theorem outcome_iff : Outcome text result ↔ characterOfToken text = result := by
  cases result with
  | ok c =>
    rw [Grammar.characterOfToken_eq_ok_iff, ← denotes_iff_names]
    exact ⟨fun h => by cases h; assumption, .char⟩
  | error f =>
    simp only [Grammar.characterOfToken_eq_error_iff, ← denotes_iff_names, Grammar.namelessFault]
    constructor
    · intro h
      cases h with
      | invalidUnicode longer meaningless => exact ⟨meaningless, rfl⟩
      | unsupported other meaningless => exact ⟨meaningless, by rw [if_neg other]⟩
    · rintro ⟨meaningless, rfl⟩
      split
      · rename_i hhead
        obtain ⟨run, rfl⟩ := List.head?_eq_some_iff.mp hhead
        refine .invalidUnicode ?_ meaningless
        -- The letter alone stands for itself.
        rintro rfl
        exact meaningless 'u' (.itself 'u')
      · rename_i hhead
        exact .unsupported hhead meaningless

/-! ## 3. Reading a literal -/

theorem literal_cons_iff :
    Literal (first :: input) result rest ↔
      characterOfToken (first :: input.takeWhile fun c => !isDelimiter c) = result ∧
        input.dropWhile (fun c => !isDelimiter c) = rest := by
  constructor
  · intro h
    cases h with
    | token whole outcome =>
      rw [whole.eq_takeWhile.1, whole.eq_takeWhile.2]
      exact ⟨outcome_iff.mp outcome, rfl⟩
  · rintro ⟨houtcome, rfl⟩
    have h := Literal.token (Grammar.run_takeWhile input) (outcome_iff.mpr houtcome)
    rwa [List.takeWhile_append_dropWhile] at h

theorem literal_nil_iff :
    Literal [] result rest ↔ .error (.unexpectedEnd "character") = result ∧ [] = rest := by
  constructor
  · intro h
    cases h
    exact ⟨rfl, rfl⟩
  · rintro ⟨rfl, rfl⟩
    exact .ending

theorem Character.Literal.unique {result' : Except ReadFault Char} {rest' : List Char}
    (h : Literal input result rest) (h' : Literal input result' rest') :
    result = result' ∧ rest = rest' := by
  cases input with
  | nil =>
    obtain ⟨rfl, rfl⟩ := literal_nil_iff.mp h
    exact literal_nil_iff.mp h'
  | cons first input =>
    obtain ⟨rfl, rfl⟩ := literal_cons_iff.mp h
    exact literal_cons_iff.mp h'

def characterResult : Except ReadFault Char → Stream → EStateM.Result Stop Stream Value
  | .ok c, t => .ok (.char c) t
  | .error f, t => .error (.error (.fault f)) t

theorem character_eq (source : String) (s : Stream) :
    ∃ result t, Literal s.input result t.input ∧
      character (Dialect.ofSource source) s = characterResult result t := by
  cases hinput : s.input with
  | nil =>
    refine ⟨.error (.unexpectedEnd "character"), s, ?_, bind_of_ok (Grammar.next_nil hinput)⟩
    rw [hinput]
    exact .ending
  | cons first input =>
    obtain ⟨t, htoken, hrest⟩ := Grammar.token_ofSource source (some first) (s.step first)
    rw [Grammar.input_step_cons hinput] at htoken hrest
    refine ⟨_, t, literal_cons_iff.mpr ⟨rfl, hrest.symm⟩, ?_⟩
    rw [Grammar.character_cons hinput, bind_of_ok htoken]
    show _ = characterResult (characterOfToken (first :: input.takeWhile fun c => !isDelimiter c)) t
    simp only [Option.toList_some, List.singleton_append]
    cases characterOfToken (first :: input.takeWhile fun c => !isDelimiter c) <;> rfl

def literalResult (place : Position) :
    Except ReadFault Char → Stream → EStateM.Result Stop Stream (Option Value)
  | .ok c, t => .ok (some (.char c)) t
  | .error f, t => .error (.error (.read f (some place))) t

theorem literalResult_inj {place : Position} {result' : Except ReadFault Char} {t t' : Stream}
    (h : literalResult place result t = literalResult place result' t') :
    result = result' ∧ t = t' := by
  cases result <;> cases result' <;> cases h <;> exact ⟨rfl, rfl⟩

theorem located_character {s t : Stream} (place : Position)
    (h : character (Dialect.ofSource source) s = characterResult result t) :
    located place (some <$> character (Dialect.ofSource source)) s =
      literalResult place result t := by
  rw [located, ← bind_pure_comp, bind_eq, h]
  cases result <;> rfl

/-- A backslash dispatches to the rest of the literal, and what is wrong with that is wrong in the
place of the backslash. -/
theorem readOne_backslash {line column : Nat} (saved : Nat) {t : Stream}
    (h : character (Dialect.ofSource source) ⟨input, line, column + 1, column⟩ =
      characterResult result t) :
    readOne (Dialect.ofSource source) ⟨'\x5c' :: input, line, column, saved⟩ =
      literalResult ⟨source, line, column + 1⟩ result t := by
  let s : Stream := ⟨'\x5c' :: input, line, column, saved⟩
  let level := input.length + 2
  have hskip : s.skipBlanks = ⟨'\x5c' :: input, line, column, column - 1⟩ := rfl
  have hstep := Grammar.step_of_cons source level (congrArg Stream.input hskip)
  have hlocated : located ⟨source, line, column + 1⟩ (dispatch (Dialect.ofSource source)
      (step (Dialect.ofSource source) level) level '\x5c') ⟨input, line, column + 1, column⟩ =
      literalResult ⟨source, line, column + 1⟩ result t := located_character _ h
  have hread : readOne (Dialect.ofSource source) s =
    formAfter (step (Dialect.ofSource source) (level + 1)) (level + 1) s := rfl
  rw [hread, formAfter]
  cases result with
  | ok c => exact bind_of_ok (hstep.trans (bind_of_ok hlocated))
  | error f => exact bind_of_error (hstep.trans (bind_of_error hlocated))

/-- What reading a literal comes to is what its text comes to, in the place of the backslash. -/
theorem character_literal_exact (source : String) (input : List Char) (line column saved : Nat) :
    (∃ result rest, Literal input result rest) ∧
    ∀ result rest, Literal input result rest ↔
      ∃ t, readOne (Dialect.ofSource source) ⟨'\x5c' :: input, line, column, saved⟩ =
        literalResult ⟨source, line, column + 1⟩ result t ∧ t.input = rest := by
  obtain ⟨result, t, hliteral, hread⟩ := character_eq source ⟨input, line, column + 1, column⟩
  have hone := readOne_backslash saved hread
  refine ⟨⟨result, t.input, hliteral⟩, fun result' rest => ⟨fun hliteral' => ?_, ?_⟩⟩
  · obtain ⟨rfl, rfl⟩ := hliteral.unique hliteral'
    exact ⟨t, hone, rfl⟩
  · rintro ⟨t', ht', rfl⟩
    obtain ⟨rfl, rfl⟩ := literalResult_inj (hone.symm.trans ht')
    exact hliteral

theorem plus_read_in_code :
    readText "\\u+41" = .ok (some (.char 'A')) ∧ ∀ n, ¬ Numeral 16 "+41".toList n := by
  refine ⟨by cbv, fun n h => ?_⟩
  exact absurd (h.mem_alphabet '+' (by decide)) (by decide)

end Lisp.Reader
