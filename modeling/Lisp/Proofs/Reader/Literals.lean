import Lisp.Proofs.Reader.Exact
import Lisp.Proofs.Reader.Grammar

/-!
# Literals are read exactly

The operations that read a number, a string, a keyword, a character literal or a comment find what
the grammar says: `finds_number`, `finds_string`, `finds_character` and `comment_iff`.  Tokens come
first, since a token of the standard dialect is a run of the grammar.
-/

namespace Lisp.Reader

abbrev Dialect.ofSource (source : String) : Dialect := { Dialect.standard with source }

namespace Grammar

variable {source : String} {s : Stream}

/-! ## 1. Runs and tokens -/

theorem macroOf_isSome (source : String) (c : Char) :
    ((Dialect.ofSource source).macroOf c).isSome = dispatching.contains c := by
  change (standardMacros.lookup c).isSome = (standardMacros.map Prod.fst).contains c
  induction standardMacros with
  | nil => rfl
  | cons entry entries ih =>
    rw [List.lookup_cons, List.map_cons, List.contains_cons]
    cases c == entry.1
    · simpa using ih
    · rfl

theorem isTerminal_ofSource (c : Char) :
    (Dialect.ofSource source).isTerminal c = isDelimiter c := by
  rw [Dialect.isTerminal, macroOf_isSome source, isDelimiter, Bool.or_comm]

theorem run_takeWhile (input : List Char) :
    Run (input.takeWhile fun c => !isDelimiter c) (input.dropWhile fun c => !isDelimiter c) where
  inside := by
    intro c hc
    have hall := List.all_takeWhile (p := fun c => !isDelimiter c) (l := input)
    simpa using List.all_eq_true.mp hall c hc
  ends := by
    intro c hc
    have hhead := List.head?_dropWhile_not (fun c => !isDelimiter c) input
    rw [Option.mem_def.mp hc] at hhead
    simpa using hhead

theorem Run.eq_takeWhile {run rest : List Char} (h : Run run rest) :
    (run ++ rest).takeWhile (fun c => !isDelimiter c) = run ∧
      (run ++ rest).dropWhile (fun c => !isDelimiter c) = rest := by
  have hinside : ∀ c ∈ run, (!isDelimiter c) = true := fun c hc => by simp [h.inside c hc]
  rw [List.takeWhile_append_of_pos hinside, List.dropWhile_append_of_pos hinside]
  cases rest with
  | nil => simp
  | cons c rest =>
    have hc : isDelimiter c = true := h.ends c rfl
    simp [hc]

theorem token_ofSource (source : String) (first : Option Char) (s : Stream) :
    ∃ t, token (Dialect.ofSource source) first s =
        .ok (first.toList ++ s.input.takeWhile fun c => !isDelimiter c) t ∧
      t.input = s.input.dropWhile fun c => !isDelimiter c := by
  refine ⟨(s.token (Dialect.ofSource source).isTerminal).2, ?_, ?_⟩
  · simp only [token, Stream.token, isTerminal_ofSource]
  · rw [Stream.input_token]
    simp only [isTerminal_ofSource]

theorem finds_token (source : String) (first : Option Char) (s : Stream) :
    Finds (token (Dialect.ofSource source) first) s fun text rest =>
      ∃ run, Run run rest ∧ s.input = run ++ rest ∧ text = first.toList ++ run := by
  obtain ⟨t, htoken, hrest⟩ := token_ofSource source first s
  refine (Finds.of_ok htoken).congr fun text rest => ⟨?_, ?_⟩
  · rintro ⟨rfl, rfl⟩
    rw [hrest]
    exact ⟨_, run_takeWhile s.input, List.takeWhile_append_dropWhile.symm, rfl⟩
  · rintro ⟨run, hrun, hinput, rfl⟩
    rw [hrest, hinput, hrun.eq_takeWhile.1, hrun.eq_takeWhile.2]
    exact ⟨rfl, rfl⟩

/-! ## 2. Numbers and keywords -/

theorem finds_outcome (result : Except Error Value) (t : Stream) :
    Finds (match result with
      | .ok v => pure v
      | .error e => fail e : Read Value) t fun v rest => result = .ok v ∧ rest = t.input := by
  cases result with
  | ok v => exact (Finds.of_ok rfl).congr fun w rest => by simp [eq_comm]
  | error e => exact (Finds.of_fail rfl).congr fun w rest => by simp

theorem finds_number (first : Char) (s : Stream) :
    Finds (number (Dialect.ofSource source) (some first)) s fun v rest =>
      ∃ run, Run run rest ∧ s.input = run ++ rest ∧ numberOfToken (first :: run) = .ok v := by
  refine ((finds_token source (some first) s).bind
    (fun text mid v rest => numberOfToken text = .ok v ∧ rest = mid)
    fun text t _ => finds_outcome (numberOfToken text) t).congr fun v rest => ⟨?_, ?_⟩
  · rintro ⟨_, mid, ⟨run, hrun, hinput, rfl⟩, hvalue, rfl⟩
    exact ⟨run, hrun, hinput, hvalue⟩
  · rintro ⟨run, hrun, hinput, hvalue⟩
    exact ⟨_, rest, ⟨run, hrun, hinput, rfl⟩, hvalue, rfl⟩

/-! ## 3. Strings -/

theorem unescape_eq_some_iff {letter c : Char} :
    Text.unescape letter = some c ↔ (letter, c) ∈ Text.escapes := by
  constructor
  · intro h
    obtain ⟨entry, hfound, rfl⟩ := Option.map_eq_some_iff.mp h
    have hletter : entry.1 = letter := by simpa using List.find?_some hfound
    rw [← hletter]
    exact List.mem_of_find?_eq_some hfound
  · intro h
    have hall : ∀ entry ∈ Text.escapes, Text.unescape entry.1 = some entry.2 := by decide
    exact hall _ h

theorem stringRest_quote_iff {input text rest : List Char} :
    StringRest ('\x22' :: input) text rest ↔ text = [] ∧ rest = input := by
  constructor
  · intro h
    cases h with
    | close => exact ⟨rfl, rfl⟩
    | plain hquote => exact absurd rfl hquote
  · rintro ⟨rfl, rfl⟩
    exact .close rest

theorem stringRest_plain_iff {c : Char} {input text rest : List Char} (hquote : c ≠ '\x22')
    (hescape : c ≠ '\x5c') :
    StringRest (c :: input) text rest ↔ ∃ more, StringRest input more rest ∧ text = c :: more := by
  constructor
  · intro h
    cases h with
    | close => exact absurd rfl hquote
    | plain _ _ more => exact ⟨_, more, rfl⟩
    | escape => exact absurd rfl hescape
  · rintro ⟨more, hmore, rfl⟩
    exact .plain hquote hescape hmore

theorem stringRest_escape_iff {letter : Char} {input text rest : List Char} :
    StringRest ('\x5c' :: letter :: input) text rest ↔
      ∃ meant more, Text.unescape letter = some meant ∧ StringRest input more rest ∧
        text = meant :: more := by
  constructor
  · intro h
    cases h with
    | plain _ hescape => exact absurd rfl hescape
    | escape hmeant more => exact ⟨_, _, unescape_eq_some_iff.mpr hmeant, more, rfl⟩
  · rintro ⟨meant, more, hmeant, hmore, rfl⟩
    exact .escape (unescape_eq_some_iff.mp hmeant) hmore

theorem not_stringRest_lone_escape {text rest : List Char} : ¬ StringRest ['\x5c'] text rest := by
  intro h
  cases h with
  | plain _ hescape => exact absurd rfl hescape

/-- The text of a string literal behind the characters read so far, which come in reverse. -/
def StringBehind (read input : List Char) (text : String) (rest : List Char) : Prop :=
  ∃ more, StringRest input more rest ∧ text = String.ofList (read.reverse ++ more)

theorem stringBehind_cons {c : Char} {read input rest : List Char} {text : String} :
    StringBehind (c :: read) input text rest ↔
      ∃ more, StringRest input more rest ∧ text = String.ofList (read.reverse ++ c :: more) := by
  simp only [StringBehind, List.reverse_cons, List.append_assoc, List.singleton_append]

theorem finds_stringRest_quote (input read : List Char) {s : Stream}
    (hstep : (s.step '\x22').input = input) :
    Finds (stringRest ('\x22' :: input) read) s (StringBehind read ('\x22' :: input)) := by
  have hact : stringRest ('\x22' :: input) read s =
      .ok (String.ofList read.reverse) (s.step '\x22') := by simp [stringRest]
  refine (Finds.of_ok hact).congr fun text rest => ?_
  simp [StringBehind, stringRest_quote_iff, hstep, and_comm]

theorem finds_stringRest_escape (letter : Char) (input read : List Char) (s : Stream)
    (hmore : ∀ meant, Finds (stringRest input (meant :: read)) ((s.step '\x5c').step letter)
      (StringBehind (meant :: read) input)) :
    Finds (stringRest ('\x5c' :: letter :: input) read) s
      (StringBehind read ('\x5c' :: letter :: input)) := by
  cases hletter : Text.unescape letter with
  | none =>
    have hact : stringRest ('\x5c' :: letter :: input) read s =
        .error (.error (.fault (.illegalEscape letter))) ((s.step '\x5c').step letter) := by
      simp only [stringRest, hletter]
      rfl
    refine (Finds.of_fail hact).congr fun text rest => ?_
    simp [StringBehind, stringRest_escape_iff, hletter]
  | some meant =>
    refine ((hmore meant).of_eq (by simp [stringRest, hletter])).congr fun text rest => ?_
    rw [stringBehind_cons]
    simp [StringBehind, stringRest_escape_iff, hletter]

theorem finds_stringRest : ∀ (input read : List Char) (s : Stream), s.input = input →
    Finds (stringRest input read) s (StringBehind read input)
  | [], read, s, _ => by
    refine (Finds.of_fail (e := .fault (.unexpectedEnd "string")) rfl).congr
      fun text rest => ⟨False.elim, ?_⟩
    rintro ⟨more, hmore, -⟩
    cases hmore
  | c :: input, read, s, hs => by
    have hstep : (s.step c).input = input := by rw [Stream.input_step, hs, List.tail_cons]
    by_cases hquote : c = '\x22'
    · subst hquote
      exact finds_stringRest_quote input read hstep
    by_cases hescape : c = '\x5c'
    · subst hescape
      cases input with
      | nil =>
        have hact : stringRest ['\x5c'] read s =
            .error (.error (.fault (.unexpectedEnd "string"))) (s.step '\x5c') := rfl
        refine (Finds.of_fail hact).congr fun text rest => ⟨False.elim, ?_⟩
        rintro ⟨more, hmore, -⟩
        exact not_stringRest_lone_escape hmore
      | cons letter input =>
        apply finds_stringRest_escape
        intro meant
        exact finds_stringRest input (meant :: read) _
          (by rw [Stream.input_step, hstep, List.tail_cons])
    · -- Any other character stands for itself.
      have hrest := finds_stringRest input (c :: read) (s.step c) hstep
      refine (hrest.of_eq (by simp [stringRest, hquote, hescape])).congr fun text rest => ?_
      rw [stringBehind_cons]
      simp [StringBehind, stringRest_plain_iff hquote hescape]

theorem finds_string (s : Stream) :
    Finds string s fun v rest =>
      ∃ text, StringRest s.input text rest ∧ v = .string (String.ofList text) := by
  have hstring : string s = (Value.string <$> stringRest s.input []) s := rfl
  refine (((finds_stringRest s.input [] s rfl).map (g := Value.string)).of_eq hstring).congr
    fun v rest => ⟨?_, ?_⟩
  · rintro ⟨text, ⟨more, hmore, rfl⟩, rfl⟩
    exact ⟨more, hmore, rfl⟩
  · rintro ⟨text, htext, rfl⟩
    exact ⟨_, ⟨text, htext, rfl⟩, rfl⟩

/-! ## 4. Characters -/

theorem characterNamed_eq_some_iff {name : String} {c : Char} :
    Text.characterNamed name = some c ↔ (name, c) ∈ Text.characterNames := by
  constructor
  · intro h
    obtain ⟨entry, hfound, rfl⟩ := Option.map_eq_some_iff.mp h
    have hname : entry.1 = name := by simpa using List.find?_some hfound
    rw [← hname]
    exact List.mem_of_find?_eq_some hfound
  · intro h
    have hall : ∀ entry ∈ Text.characterNames, Text.characterNamed entry.1 = some entry.2 := by
      decide
    exact hall _ h

/-- No character name is a single character or starts like a code. -/
theorem characterName_shape {text : List Char} {c : Char}
    (h : (String.ofList text, c) ∈ Text.characterNames) :
    text.length ≠ 1 ∧ text.head? ≠ some 'u' := by
  have hall : ∀ entry ∈ Text.characterNames,
      entry.1.toList.length ≠ 1 ∧ entry.1.toList.head? ≠ some 'u' := by decide
  simpa using hall _ h

theorem characterOfToken_eq_ok_iff {text : List Char} {c : Char} :
    characterOfToken text = .ok c ↔ Names text c := by
  constructor
  · intro h
    unfold characterOfToken at h
    split at h
    · cases h
      exact .itself c
    · split at h
      · rename_i hnamed
        cases h
        exact .name (characterNamed_eq_some_iff.mp hnamed)
      · split at h
        · split at h
          · rename_i hscalar
            cases h
            exact .code hscalar
          · cases h
        · cases h
  · intro h
    -- By its shape a name takes neither of the other branches, and neither does a code.
    cases h with
    | itself => rfl
    | name hknown =>
      have hshape := characterName_shape hknown
      unfold characterOfToken
      split
      · exact absurd rfl hshape.1
      · rw [characterNamed_eq_some_iff.mpr hknown]
    | @code digits _ hscalar =>
      unfold characterOfToken
      split
      · rename_i hsingle
        rw [(List.cons.inj hsingle).2] at hscalar
        cases hscalar
      · split
        · rename_i hnamed
          exact absurd rfl (characterName_shape (characterNamed_eq_some_iff.mp hnamed)).2
        · simp only [hscalar]

theorem finds_characterOfToken (text : List Char) (t : Stream) :
    Finds (match characterOfToken text with
      | .ok c => pure (.char c)
      | .error f => failWith f : Read Value) t
      fun v rest => (∃ c, Names text c ∧ v = .char c) ∧ rest = t.input := by
  cases htext : characterOfToken text with
  | ok c =>
    refine (Finds.of_ok rfl).congr fun v rest => ?_
    simp [← characterOfToken_eq_ok_iff, htext]
  | error f =>
    refine (Finds.of_fail (e := .fault f) rfl).congr fun v rest => ?_
    simp [← characterOfToken_eq_ok_iff, htext]

theorem character_cons {s : Stream} {first : Char} {input : List Char}
    (hinput : s.input = first :: input) :
    character (Dialect.ofSource source) s =
      (token (Dialect.ofSource source) (some first) >>= fun text =>
        match characterOfToken text with
        | .ok c => pure (.char c)
        | .error f => failWith f) (s.step first) := by
  have hnext : next s = .ok (some first) (s.step first) := by
    simp only [next, Stream.next, hinput]
  exact bind_of_ok hnext

theorem finds_character (s : Stream) :
    Finds (character (Dialect.ofSource source)) s fun v rest =>
      ∃ first run c, Run run rest ∧ s.input = first :: (run ++ rest) ∧
        Names (first :: run) c ∧ v = .char c := by
  cases hinput : s.input with
  | nil =>
    have hnext : next s = .ok none s := by simp only [next, Stream.next, hinput]
    have hact : character (Dialect.ofSource source) s =
        .error (.error (.fault (.unexpectedEnd "character"))) s := bind_of_ok hnext
    exact (Finds.of_fail hact).congr fun v rest => by simp
  | cons first input =>
    have hstep : (s.step first).input = input := by rw [Stream.input_step, hinput, List.tail_cons]
    -- The token is the character and the run behind it.
    have hrest := (finds_token source (some first) (s.step first)).bind
      (fun text mid v rest => (∃ c, Names text c ∧ v = Value.char c) ∧ rest = mid)
      fun text t _ => finds_characterOfToken text t
    refine (hrest.of_eq (character_cons hinput)).congr fun v rest => ⟨?_, ?_⟩
    · rintro ⟨_, mid, ⟨run, hrun, hmid, rfl⟩, ⟨c, hc, rfl⟩, rfl⟩
      exact ⟨first, run, c, hrun, by rw [← hmid, hstep], hc, rfl⟩
    · rintro ⟨_, run, c, hrun, hmid, hc, rfl⟩
      obtain ⟨rfl, rfl⟩ := List.cons.inj hmid
      exact ⟨_, rest, ⟨run, hrun, hstep, rfl⟩, ⟨c, hc, rfl⟩, rfl⟩

/-! ## 5. Comments -/

theorem comment_iff {input rest : List Char} :
    Comment (';' :: input) rest ↔ rest = (input.dropWhile (· ≠ '\n')).tail := by
  have hline : ∀ body : List Char, '\n' ∉ body → ∀ c ∈ body, decide (c ≠ '\n') = true := by
    intro body hbody c hc
    exact decide_eq_true fun heq => hbody (heq ▸ hc)
  constructor
  · intro h
    cases h with
    | line hbody =>
      rw [List.dropWhile_append_of_pos (hline _ hbody)]
      simp
    | last hbody =>
      have hdrop := @List.dropWhile_append_of_pos _ _ _ [] (hline _ hbody)
      rw [List.append_nil] at hdrop
      rw [hdrop]
      rfl
  · rintro rfl
    -- The line ends at the first newline, or with the text.
    have hsplit := List.takeWhile_append_dropWhile (p := (· ≠ '\n')) (l := input)
    have hbody : '\n' ∉ input.takeWhile (· ≠ '\n') := by
      intro hmem
      have hall := List.all_takeWhile (p := (· ≠ '\n')) (l := input)
      simpa using List.all_eq_true.mp hall _ hmem
    have hhead := List.head?_dropWhile_not (· ≠ '\n') input
    cases hdrop : input.dropWhile (· ≠ '\n') with
    | nil =>
      rw [hdrop, List.append_nil] at hsplit
      rw [hsplit] at hbody
      exact .last hbody
    | cons c rest =>
      rw [hdrop] at hhead hsplit
      have hc : c = '\n' := by simpa using hhead
      rw [← hsplit, hc]
      exact .line hbody

end Grammar

end Lisp.Reader
