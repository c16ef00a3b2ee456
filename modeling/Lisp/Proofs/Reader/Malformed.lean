import Lisp.Proofs.Reader.Items

/-!
# The grammar of malformed texts

What is wrong with a text, said without a reader.  `Malformed c input f` says that the form which
starts with `c`, with `input` behind it, is itself malformed, by the fault `f`, while everything
that it holds is well-formed.  `Faulty` looks for the malformed form inside of quotes and brackets,
and `TextFault input q f` behind well-formed forms and comments as well: `q` is where it starts.

A bracket that never closes is only at fault if nothing behind it is.
-/

namespace Lisp.Reader.Grammar

variable {c close : Char} {construct : String} {input mid rest q : List Char} {f : ReadFault}
  {start : Option (List Char)}

/-! ## 1. Malformed forms -/

inductive StringFault : List Char → ReadFault → Prop
  | ending : StringFault [] (.unexpectedEnd "string")
  | endingEscape : StringFault ['\x5c'] (.unexpectedEnd "string")
  | unknownEscape {letter : Char} {input : List Char} (unknown : ∀ c, (letter, c) ∉ Text.escapes) :
      StringFault ('\x5c' :: letter :: input) (.illegalEscape letter)
  | plain {c : Char} {input : List Char} {f : ReadFault} (noQuote : c ≠ '\x22')
      (noEscape : c ≠ '\x5c') (more : StringFault input f) : StringFault (c :: input) f
  | escape {letter c : Char} {input : List Char} {f : ReadFault}
      (meant : (letter, c) ∈ Text.escapes) (more : StringFault input f) :
      StringFault ('\x5c' :: letter :: input) f

def namelessFault (text : List Char) : ReadFault :=
  if text.head? = some 'u' then .invalidUnicode (String.ofList text)
  else .unsupportedCharacter (String.ofList text)

inductive CharacterFault : List Char → ReadFault → Prop
  | ending : CharacterFault [] (.unexpectedEnd "character")
  | nameless {first : Char} {run rest : List Char} (whole : Run run rest)
      (meaningless : ∀ c, ¬ Names (first :: run) c) :
      CharacterFault (first :: (run ++ rest)) (namelessFault (first :: run))

def brackets : List (Char × Char × String) := [('(', ')', "list"), ('[', ']', "vector")]

/-- The form that starts with a character is malformed, and nothing inside of it is. -/
inductive Malformed : Char → List Char → ReadFault → Prop
  /-- A run that starts like a number and is none. -/
  | number {c : Char} {run rest : List Char} (whole : Run (c :: run) rest)
      (numeric : isNumeric (c :: run) = true)
      (meaningless : Number.Literal.read (c :: run) = none) :
      Malformed c (run ++ rest) (.numberFormat (String.ofList (c :: run)))
  | string {input : List Char} {f : ReadFault} (body : StringFault input f) :
      Malformed '\x22' input f
  | character {input : List Char} {f : ReadFault} (body : CharacterFault input f) :
      Malformed '\x5c' input f
  /-- A closing character that closes nothing. -/
  | unmatched {c : Char} {input : List Char} (closing : c ∈ [')', ']']) :
      Malformed c input (.unmatchedDelimiter c)
  | quoteEnd {c : Char} {operator : String} {input : List Char}
      (quotes : quoteOperator c = some operator) (blanks : Blanks input []) :
      Malformed c input (.unexpectedEnd operator)
  /-- A comment is no form, so it cannot be quoted. -/
  | quotedComment {c : Char} {operator : String} {input mid rest : List Char}
      (quotes : quoteOperator c = some operator) (blanks : Blanks input mid)
      (comment : Comment mid rest) : Malformed c input .quotedNothing
  | unclosed {c close : Char} {construct : String} {input : List Char} {vs : List Value}
      (bracket : (c, close, construct) ∈ brackets) (items : Text input vs []) :
      Malformed c input (.unexpectedEnd construct)

/-- The form that starts with a character is malformed, or holds a malformed form that starts at the
given text: the first one, behind well-formed forms and comments only. -/
inductive Faulty : Char → List Char → Option (List Char) → ReadFault → Prop
  | itself {c : Char} {input : List Char} {f : ReadFault} (malformed : Malformed c input f) :
      Faulty c input none f
  | quoted {c d : Char} {operator : String} {input mid : List Char} {inner : Option (List Char)}
      {f : ReadFault} (quotes : quoteOperator c = some operator) (blanks : Blanks input (d :: mid))
      (fault : Faulty d mid inner f) : Faulty c input (some (inner.getD (d :: mid))) f
  | enclosed {c d close : Char} {construct : String} {input mid : List Char} {vs : List Value}
      {inner : Option (List Char)} {f : ReadFault} (bracket : (c, close, construct) ∈ brackets)
      (items : Text input vs (d :: mid)) (ongoing : d ≠ close) (fault : Faulty d mid inner f) :
      Faulty c input (some (inner.getD (d :: mid))) f

def FaultAt (q : List Char) (f : ReadFault) (input : List Char) : Prop :=
  ∃ c mid inner, input = c :: mid ∧ Faulty c mid inner f ∧ q = inner.getD input

def Reaches (goal : List Char → Prop) (input : List Char) : Prop :=
  ∃ vs mid, Text input vs mid ∧ goal mid

/-- The first malformed form of a text starts at `q`. -/
def TextFault (input q : List Char) (f : ReadFault) : Prop := Reaches (FaultAt q f) input

/-! ## 2. What a malformed form starts with -/

theorem Run.of_cons_cons {run : List Char} (whole : Run (c :: run) rest) :
    isDelimiter c = false ∧ Run run rest :=
  ⟨whole.inside c List.mem_cons_self,
    ⟨fun d hd => whole.inside d (List.mem_cons_of_mem c hd), whole.ends⟩⟩

theorem closing_spec (h : c ∈ [')', ']']) : isBlank c = false ∧ isDelimiter c = true := by
  have hall : [')', ']'].all (fun c => !isBlank c && isDelimiter c) = true := by decide
  simpa using List.all_eq_true.mp hall c h

theorem brackets_spec (h : (c, close, construct) ∈ brackets) :
    isBlank c = false ∧ isDelimiter c = true := by
  have hall : brackets.all (fun bracket => !isBlank bracket.1 && isDelimiter bracket.1) = true := by
    decide
  simpa using List.all_eq_true.mp hall _ h

theorem Malformed.starts (h : Malformed c input f) :
    isBlank c = false ∧ (isDelimiter c = true ∨ ∃ run rest, Run run rest ∧ input = run ++ rest ∧
      isNumeric (c :: run) = true ∧ Number.Literal.read (c :: run) = none ∧
      f = .numberFormat (String.ofList (c :: run))) := by
  cases h with
  | number whole numeric meaningless =>
    obtain ⟨hc, hrun⟩ := whole.of_cons_cons
    rw [isDelimiter, Bool.or_eq_false_iff] at hc
    exact ⟨hc.1, .inr ⟨_, _, hrun, rfl, numeric, meaningless, rfl⟩⟩
  | string | character => exact ⟨by decide, .inl (by decide)⟩
  | unmatched closing => exact (closing_spec closing).imp_right .inl
  | quoteEnd quotes | quotedComment quotes =>
    obtain ⟨hblank, -, hdelimiter⟩ := quoteOperator_spec quotes
    exact ⟨hblank, .inl hdelimiter⟩
  | unclosed bracket => exact (brackets_spec bracket).imp_right .inl

theorem Faulty.not_blank (h : Faulty c input start f) : isBlank c = false := by
  cases h with
  | itself malformed => exact malformed.starts.1
  | quoted quotes => exact (quoteOperator_spec quotes).1
  | enclosed bracket => exact (brackets_spec bracket).1

theorem FaultAt.dropWhile (h : FaultAt q f input) : input.dropWhile isBlank = input := by
  obtain ⟨c, mid, inner, rfl, hfault, -⟩ := h
  exact List.dropWhile_cons_of_neg (by simp [hfault.not_blank])

theorem FaultAt.of_faulty (h : Faulty c mid start f) :
    FaultAt (start.getD (c :: mid)) f (c :: mid) := ⟨c, mid, start, rfl, h, rfl⟩

theorem Faulty.malformed (h : Faulty c mid start f) :
    ∃ d rest, start.getD (c :: mid) = d :: rest ∧ Malformed d rest f := by
  induction h with
  | itself malformed => exact ⟨_, _, rfl, malformed⟩
  | quoted _ _ _ ih => exact ih
  | enclosed _ _ _ _ ih => exact ih

theorem TextFault.malformed (h : TextFault input q f) :
    ∃ c rest, q = c :: rest ∧ Malformed c rest f := by
  obtain ⟨vs, mid, -, c, rest, inner, rfl, hfault, rfl⟩ := h
  exact hfault.malformed

/-! ## 3. Faults by the first character -/

inductive QuoteFault (operator : String) (input : List Char) : Option (List Char) → ReadFault → Prop
  | ending {rest : List Char} (item : Item input .ending rest) :
      QuoteFault operator input none (.unexpectedEnd operator)
  | comment {rest : List Char} (item : Item input .nothing rest) :
      QuoteFault operator input none .quotedNothing
  | inside {q : List Char} {f : ReadFault} (fault : FaultAt q f (input.dropWhile isBlank)) :
      QuoteFault operator input (some q) f

/-- Where the text inside of brackets does not go on: at its end, or at a form that is at fault. -/
inductive Stuck (close : Char) (construct : String) :
    Option (List Char) → ReadFault → List Char → Prop
  | ending : Stuck close construct none (.unexpectedEnd construct) []
  | inside {d : Char} {mid q : List Char} {f : ReadFault} (ongoing : d ≠ close)
      (fault : FaultAt q f (d :: mid)) : Stuck close construct (some q) f (d :: mid)

theorem QuoteFault.faulty {operator : String} (hc : quoteOperator c = some operator)
    (h : QuoteFault operator input start f) : Faulty c input start f := by
  cases h with
  | ending item => exact .itself (.quoteEnd hc (item.1 ▸ blanks_dropWhile input))
  | comment item => exact .itself (.quotedComment hc (blanks_dropWhile input) item)
  | inside fault =>
    obtain ⟨d, mid, inner, hinput, hfault, rfl⟩ := fault
    rw [hinput]
    exact .quoted hc (hinput ▸ blanks_dropWhile input) hfault

theorem Stuck.faulty (hc : (c, close, construct) ∈ brackets)
    (h : Reaches (Stuck close construct start f) input) : Faulty c input start f := by
  obtain ⟨vs, mid, hitems, hstuck⟩ := h
  cases hstuck with
  | ending => exact .itself (.unclosed hc hitems)
  | inside ongoing fault =>
    obtain ⟨d, mid, inner, hcons, hfault, rfl⟩ := fault
    obtain ⟨rfl, rfl⟩ := List.cons.inj hcons
    exact .enclosed hc hitems ongoing hfault

theorem Faulty.of_delimiter (hc : isDelimiter c = true) (h : Faulty c input start f) :
    (c = '\x22' ∧ start = none ∧ StringFault input f) ∨
    (c = '\x5c' ∧ start = none ∧ CharacterFault input f) ∨
    (c ∈ [')', ']'] ∧ start = none ∧ f = .unmatchedDelimiter c) ∨
    (∃ operator, quoteOperator c = some operator ∧ QuoteFault operator input start f) ∨
    (∃ close construct, (c, close, construct) ∈ brackets ∧
      Reaches (Stuck close construct start f) input) := by
  cases h with
  | itself malformed =>
    cases malformed with
    | number whole =>
      rw [whole.of_cons_cons.1] at hc
      cases hc
    | string body => exact .inl ⟨rfl, rfl, body⟩
    | character body => exact .inr (.inl ⟨rfl, rfl, body⟩)
    | unmatched closing => exact .inr (.inr (.inl ⟨closing, rfl, rfl⟩))
    | quoteEnd quotes blanks =>
      exact .inr (.inr (.inr (.inl ⟨_, quotes, .ending ⟨blanks.dropWhile, rfl⟩⟩)))
    | @quotedComment _ operator _ mid rest quotes blanks comment =>
      have hitem : Item input .nothing rest := by
        rwa [Item, blanks.dropWhile, comment.dropWhile]
      exact .inr (.inr (.inr (.inl ⟨_, quotes, .comment hitem⟩)))
    | unclosed bracket items =>
      exact .inr (.inr (.inr (.inr ⟨_, _, bracket, _, _, items, .ending⟩)))
  | quoted quotes blanks fault =>
    have hat := FaultAt.of_faulty fault
    refine .inr (.inr (.inr (.inl ⟨_, quotes, .inside ?_⟩)))
    rwa [blanks.dropWhile, hat.dropWhile]
  | enclosed bracket items ongoing fault =>
    exact .inr (.inr (.inr (.inr ⟨_, _, bracket, _, _, items, .inside ongoing (.of_faulty fault)⟩)))

theorem faulty_string_iff : Faulty '\x22' input start f ↔ start = none ∧ StringFault input f := by
  constructor
  · intro h
    simpa [quoteOperator, brackets] using h.of_delimiter (by decide)
  · rintro ⟨rfl, body⟩
    exact .itself (.string body)

theorem faulty_character_iff :
    Faulty '\x5c' input start f ↔ start = none ∧ CharacterFault input f := by
  constructor
  · intro h
    simpa [quoteOperator, brackets] using h.of_delimiter (by decide)
  · rintro ⟨rfl, body⟩
    exact .itself (.character body)

theorem not_faulty_comment : ¬ Faulty ';' input start f := by
  intro h
  simpa [quoteOperator, brackets] using h.of_delimiter (by decide)

theorem not_faulty_keyword : ¬ Faulty ':' input start f := by
  intro h
  simpa [quoteOperator, brackets] using h.of_delimiter (by decide)

theorem faulty_closing_iff (hc : c ∈ [')', ']']) :
    Faulty c input start f ↔ start = none ∧ f = .unmatchedDelimiter c := by
  constructor
  · intro h
    simp only [List.mem_cons, List.not_mem_nil, or_false] at hc
    rcases hc with rfl | rfl
    · simpa [quoteOperator, brackets] using h.of_delimiter (by decide)
    · simpa [quoteOperator, brackets] using h.of_delimiter (by decide)
  · rintro ⟨rfl, rfl⟩
    exact .itself (.unmatched hc)

theorem faulty_quote_iff {operator : String} (hc : quoteOperator c = some operator) :
    Faulty c input start f ↔ QuoteFault operator input start f := by
  refine ⟨fun h => ?_, QuoteFault.faulty hc⟩
  unfold quoteOperator at hc
  split at hc
  all_goals cases hc
  all_goals simpa [quoteOperator, brackets] using h.of_delimiter (by decide)

theorem faulty_bracket_iff (hc : (c, close, construct) ∈ brackets) :
    Faulty c input start f ↔ Reaches (Stuck close construct start f) input := by
  refine ⟨fun h => ?_, Stuck.faulty hc⟩
  simp only [brackets, List.mem_cons, Prod.mk.injEq, List.not_mem_nil, or_false] at hc
  rcases hc with ⟨rfl, rfl, rfl⟩ | ⟨rfl, rfl, rfl⟩
  · simpa [quoteOperator, brackets] using h.of_delimiter (by decide)
  · simpa [quoteOperator, brackets] using h.of_delimiter (by decide)

/-- A form that starts with any other character is a run, and at fault if it is meant for a number
and is none. -/
theorem faulty_run_iff (hc : isDelimiter c = false) :
    Faulty c input start f ↔ ∃ run rest, Run run rest ∧ input = run ++ rest ∧
      isNumeric (c :: run) = true ∧ start = none ∧ Number.Literal.read (c :: run) = none ∧
      f = .numberFormat (String.ofList (c :: run)) := by
  constructor
  · intro h
    cases h with
    | itself malformed =>
      rcases malformed.starts.2 with hdelimiter | ⟨run, rest, hrun, hinput, hnumeric, hfault⟩
      · rw [hc] at hdelimiter
        cases hdelimiter
      · exact ⟨run, rest, hrun, hinput, hnumeric, rfl, hfault⟩
    | quoted quotes => exact absurd (quoteOperator_spec quotes).2.2 (by simp [hc])
    | enclosed bracket => exact absurd (brackets_spec bracket).2 (by simp [hc])
  · rintro ⟨run, rest, hrun, rfl, hnumeric, rfl, hmeaningless, rfl⟩
    have hwhole : Run (c :: run) rest := ⟨by simpa [hc] using hrun.inside, hrun.ends⟩
    exact .itself (.number hwhole hnumeric hmeaningless)

/-! ## 4. Texts at fault -/

theorem Stuck.dropWhile (h : Stuck close construct start f input) :
    input.dropWhile isBlank = input := by
  cases h with
  | ending => rfl
  | inside _ fault => exact fault.dropWhile

theorem stuck_iff (hc : c ≠ close) :
    Stuck close construct start f (c :: input) ↔
      ∃ q, start = some q ∧ FaultAt q f (c :: input) := by
  constructor
  · intro h
    cases h with
    | inside _ fault => exact ⟨_, rfl, fault⟩
  · rintro ⟨q, rfl, fault⟩
    exact .inside hc fault

theorem reaches_iff {goal : List Char → Prop}
    (hgoal : ∀ mid, goal mid → mid.dropWhile isBlank = mid) :
    Reaches goal input ↔ goal (input.dropWhile isBlank) ∨
      (∃ v mid, Item input (.form v) mid ∧ Reaches goal mid) ∨
      (∃ mid, Item input .nothing mid ∧ Reaches goal mid) := by
  constructor
  · rintro ⟨vs, rest, htext, hrest⟩
    rcases (text_iff (hgoal rest hrest)).mp htext with
      ⟨rfl, -⟩ | ⟨mid, v, ws, hitem, hmore, -⟩ | ⟨mid, hitem, hmore⟩
    · exact .inl hrest
    · exact .inr (.inl ⟨v, mid, hitem, ws, rest, hmore, hrest⟩)
    · exact .inr (.inr ⟨mid, hitem, vs, rest, hmore, hrest⟩)
  · rintro (hhere | ⟨v, mid, hitem, ws, rest, hmore, hrest⟩ | ⟨mid, hitem, vs, rest, hmore, hrest⟩)
    · exact ⟨[], _, Text.of_dropWhile (.done _), hhere⟩
    · exact ⟨v :: ws, rest, Text.of_dropWhile (.form hitem hmore), hrest⟩
    · exact ⟨vs, rest, Text.of_dropWhile (.comment hitem hmore), hrest⟩

end Lisp.Reader.Grammar
