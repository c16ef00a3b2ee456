import Lisp.Proofs.Reader.Acceptance
import Lisp.Proofs.Reader.Malformed
import Lisp.Proofs.Reader.Place

/-!
# Where reading fails

`Fails act s blame` says that from the stream `s` the operation `act` fails exactly as `blame`
allows: each error is a fault of the text, and its place, if it has one by then, is where the blamed
rest of the text starts.  A step of reading always knows the place.  It is the one of the first
character of the form being read, and the innermost form wins.

So reading a text fails exactly when its grammar finds a malformed form, and points at it:
`read_error_located`.
-/

namespace Lisp.Reader

namespace Grammar

variable {α β : Type} {source : String} {whole : List Char} {act : Read α} {f : α → Read β}
  {s t : Stream}

/-! ## 1. Exact failure and its rules -/

/-- From `s`, the operation ends in exactly the faults that the relation allows, each with the rest
of the text that it blames.  Nothing is blamed as long as that is for the form around it to do. -/
structure Fails (source : String) (whole : List Char) (act : Read α) (s : Stream)
    (blame : Option (List Char) → ReadFault → Prop) : Prop where
  /-- An error is an allowed fault, and blames some rest of the text. -/
  sound : ∀ {e t}, act s = .error (.error e) t → ∃ start fault, blame start fault ∧
    (∀ q ∈ start, q <:+ whole) ∧ e = .read fault (start.map (placeOf source whole))
  /-- An allowed fault is met. -/
  complete : ∀ {start fault}, blame start fault →
    ∃ t, act s = .error (.error (.read fault (start.map (placeOf source whole)))) t

namespace Fails

variable {blame : Option (List Char) → ReadFault → Prop}

theorem of_ok {a : α} (h : act s = .ok a t) : Fails source whole act s fun _ _ => False where
  sound := by
    intro e u hu
    rw [h] at hu
    cases hu
  complete := fun hfalse => hfalse.elim

theorem of_fail {g : ReadFault} (h : act s = .error (.error (.fault g)) t) :
    Fails source whole act s fun start fault => start = none ∧ fault = g where
  sound := by
    intro e u hu
    rw [h] at hu
    cases hu
    exact ⟨none, g, ⟨rfl, rfl⟩, by simp, rfl⟩
  complete := by
    rintro start fault ⟨rfl, rfl⟩
    exact ⟨t, h⟩

theorem congr {blame' : Option (List Char) → ReadFault → Prop} (h : Fails source whole act s blame)
    (same : ∀ start fault, blame start fault ↔ blame' start fault) :
    Fails source whole act s blame' where
  sound := fun he => by
    obtain ⟨start, fault, hblame, hrest⟩ := h.sound he
    exact ⟨start, fault, (same _ _).mp hblame, hrest⟩
  complete := fun hblame => h.complete ((same _ _).mpr hblame)

theorem of_eq {act' : Read α} (h : Fails source whole act' t blame) (same : act s = act' t) :
    Fails source whole act s blame where
  sound := fun he => h.sound (same ▸ he)
  complete := fun hblame => by rw [same]; exact h.complete hblame

/-- Two operations in sequence fail by the first of them, or by the second behind what the first
finds. -/
theorem bind {means : α → List Char → Prop} (found : Finds act s means)
    (first : Fails source whole act s blame)
    (blame' : α → List Char → Option (List Char) → ReadFault → Prop)
    (next : ∀ a t, act s = .ok a t → Fails source whole (f a) t (blame' a t.input)) :
    Fails source whole (act >>= f) s fun start fault =>
      blame start fault ∨ ∃ a mid, means a mid ∧ blame' a mid start fault where
  sound := by
    intro e u hu
    rw [bind_eq] at hu
    split at hu
    · rename_i a t ha
      obtain ⟨start, fault, hblame, hrest⟩ := (next a t ha).sound hu
      exact ⟨start, fault, .inr ⟨a, t.input, found.sound ha, hblame⟩, hrest⟩
    · rename_i stop t hstop
      cases hu
      obtain ⟨start, fault, hblame, hrest⟩ := first.sound hstop
      exact ⟨start, fault, .inl hblame, hrest⟩
  complete := by
    rintro start fault (hblame | ⟨a, mid, ha, hblame⟩)
    · obtain ⟨t, ht⟩ := first.complete hblame
      exact ⟨t, bind_of_error ht⟩
    · obtain ⟨t, ht, rfl⟩ := found.complete ha
      obtain ⟨u, hu⟩ := (next a t ht).complete hblame
      exact ⟨u, by rw [bind_of_ok ht]; exact hu⟩

theorem map (h : Fails source whole act s blame) (g : α → β) :
    Fails source whole (g <$> act) s blame := by
  have hmap : ∀ {stop u}, (g <$> act) s = .error stop u ↔ act s = .error stop u := by
    intro stop u
    rw [← bind_pure_comp, bind_eq]
    cases act s with
    | ok a t => exact ⟨nofun, nofun⟩
    | error stop' t =>
      constructor
      · rintro ⟨⟩
        rfl
      · rintro ⟨⟩
        rfl
  exact ⟨fun he => h.sound (hmap.mp he), fun hblame => (h.complete hblame).imp fun _ => hmap.mpr⟩

/-- What nothing is blamed for yet is blamed on the form that starts here. -/
theorem located {q : List Char} (h : Fails source whole act s blame) (hq : q <:+ whole) :
    Fails source whole (Reader.located (placeOf source whole q) act) s fun start fault =>
      ∃ inner, blame inner fault ∧ start = some (inner.getD q) where
  sound := by
    intro e u hu
    unfold Reader.located at hu
    split at hu
    · cases hu
    · rename_i e' t' he
      cases hu
      obtain ⟨inner, fault, hblame, hinner, rfl⟩ := h.sound he
      refine ⟨some (inner.getD q), fault, ⟨inner, hblame, rfl⟩, ?_, ?_⟩
      · cases inner with
        | none => simpa using hq
        | some p => exact hinner
      · cases inner with
        | none => rfl
        | some p => rfl
    · rename_i hother _
      cases hu
      exact (hother _ rfl).elim
  complete := by
    rintro start fault ⟨inner, hblame, rfl⟩
    obtain ⟨t, ht⟩ := h.complete hblame
    refine ⟨t, ?_⟩
    unfold Reader.located
    rw [ht]
    cases inner with
    | none => rfl
    | some p => rfl

end Fails

/-! ## 2. Literals -/

theorem numberOfToken_eq_error_iff {token : List Char} {e : Error} :
    numberOfToken token = .error e ↔
      Number.Literal.read token = none ∧ e = .fault (.numberFormat (String.ofList token)) := by
  unfold numberOfToken
  cases Number.Literal.read token with
  | none => simp [eq_comm]
  | some literal => cases literal <;> simp

theorem fails_token_bind (first : Option Char) (s : Stream)
    (blame : List Char → Option (List Char) → ReadFault → Prop) {f : List Char → Read β}
    (next : ∀ text t, Fails source whole (f text) t (blame text)) :
    Fails source whole (token (Dialect.ofSource source) first >>= f) s fun start fault =>
      ∃ run rest, Run run rest ∧ s.input = run ++ rest ∧
        blame (first.toList ++ run) start fault := by
  obtain ⟨u, htoken, -⟩ := token_ofSource source first s
  refine (Fails.bind (finds_token source first s) (Fails.of_ok htoken)
    (fun text _ => blame text) fun text t _ => next text t).congr fun start fault => ⟨?_, ?_⟩
  · rintro (hfalse | ⟨_, rest, ⟨run, hrun, hinput, rfl⟩, hblame⟩)
    · exact hfalse.elim
    · exact ⟨run, rest, hrun, hinput, hblame⟩
  · rintro ⟨run, rest, hrun, hinput, hblame⟩
    exact .inr ⟨_, rest, ⟨run, hrun, hinput, rfl⟩, hblame⟩

theorem fails_number (c : Char) (s : Stream) :
    Fails source whole (number (Dialect.ofSource source) (some c)) s fun start fault =>
      ∃ run rest, Run run rest ∧ s.input = run ++ rest ∧ start = none ∧
        Number.Literal.read (c :: run) = none ∧
        fault = .numberFormat (String.ofList (c :: run)) := by
  refine fails_token_bind (some c) s (fun text start fault => start = none ∧
    Number.Literal.read text = none ∧ fault = .numberFormat (String.ofList text)) fun text t => ?_
  cases hread : numberOfToken text with
  | ok v =>
    refine (Fails.of_ok rfl).congr fun start fault => ⟨False.elim, ?_⟩
    rintro ⟨-, hnone, -⟩
    rw [numberOfToken, hnone] at hread
    cases hread
  | error e =>
    obtain ⟨hnone, rfl⟩ := numberOfToken_eq_error_iff.mp hread
    exact (Fails.of_fail rfl).congr fun start fault => by simp [hnone]

theorem not_stringFault_quote {input : List Char} {fault : ReadFault} :
    ¬ StringFault ('\x22' :: input) fault := by
  intro h
  cases h with
  | plain hquote => exact absurd rfl hquote

theorem stringFault_plain_iff {c : Char} {input : List Char} {fault : ReadFault}
    (hquote : c ≠ '\x22') (hescape : c ≠ '\x5c') :
    StringFault (c :: input) fault ↔ StringFault input fault := by
  constructor
  · intro h
    cases h with
    | plain _ _ more => exact more
    | endingEscape | unknownEscape | escape => exact absurd rfl hescape
  · exact .plain hquote hescape

theorem stringFault_endingEscape_iff {fault : ReadFault} :
    StringFault ['\x5c'] fault ↔ fault = .unexpectedEnd "string" := by
  constructor
  · intro h
    cases h with
    | endingEscape => rfl
    | plain _ hescape => exact absurd rfl hescape
  · rintro rfl
    exact .endingEscape

theorem stringFault_escape_iff {letter : Char} {input : List Char} {fault : ReadFault} :
    StringFault ('\x5c' :: letter :: input) fault ↔
      match Text.unescape letter with
      | some _ => StringFault input fault
      | none => fault = .illegalEscape letter := by
  cases hletter : Text.unescape letter with
  | some meant =>
    constructor
    · intro h
      cases h with
      | unknownEscape unknown => exact absurd (unescape_eq_some_iff.mp hletter) (unknown meant)
      | plain _ hescape => exact absurd rfl hescape
      | escape _ more => exact more
    · exact .escape (unescape_eq_some_iff.mp hletter)
  | none =>
    have hunknown : ∀ c, (letter, c) ∉ Text.escapes := by
      intro c hc
      rw [unescape_eq_some_iff.mpr hc] at hletter
      cases hletter
    constructor
    · intro h
      cases h with
      | unknownEscape => rfl
      | plain _ hescape => exact absurd rfl hescape
      | escape meant => exact absurd meant (hunknown _)
    · rintro rfl
      exact .unknownEscape hunknown

theorem fails_stringRest : ∀ (input read : List Char) (s : Stream),
    Fails source whole (stringRest input read) s fun start fault =>
      start = none ∧ StringFault input fault
  | [], read, s => by
    refine (Fails.of_fail (g := .unexpectedEnd "string") rfl).congr fun start fault =>
      and_congr_right fun _ => ⟨?_, ?_⟩
    · rintro rfl
      exact .ending
    · rintro ⟨⟩
      rfl
  | c :: input, read, s => by
    by_cases hquote : c = '\x22'
    · subst hquote
      have hact : stringRest ('\x22' :: input) read s =
          .ok (String.ofList read.reverse) (s.step '\x22') := by simp [stringRest]
      exact (Fails.of_ok hact).congr fun start fault => by simp [not_stringFault_quote]
    by_cases hescape : c = '\x5c'
    · subst hescape
      cases input with
      | nil =>
        have hact : stringRest ['\x5c'] read s =
            .error (.error (.fault (.unexpectedEnd "string"))) (s.step '\x5c') := rfl
        exact (Fails.of_fail hact).congr fun start fault => by rw [stringFault_endingEscape_iff]
      | cons letter input =>
        simp only [stringFault_escape_iff]
        cases hletter : Text.unescape letter with
        | none =>
          have hact : stringRest ('\x5c' :: letter :: input) read s =
              .error (.error (.fault (.illegalEscape letter))) ((s.step '\x5c').step letter) := by
            simp only [stringRest, hletter]
            rfl
          exact Fails.of_fail hact
        | some meant =>
          exact (fails_stringRest input (meant :: read) ((s.step '\x5c').step letter)).of_eq
            (by simp [stringRest, hletter])
    · -- Any other character stands for itself.
      simp only [stringFault_plain_iff hquote hescape]
      exact (fails_stringRest input (c :: read) (s.step c)).of_eq
        (by simp [stringRest, hquote, hescape])

theorem fails_string (s : Stream) : Fails source whole string s fun start fault =>
    start = none ∧ StringFault s.input fault := by
  have hstring : string s = (Value.string <$> stringRest s.input []) s := rfl
  exact ((fails_stringRest s.input [] s).map Value.string).of_eq hstring

theorem characterOfToken_ok_or_error (text : List Char) :
    (∃ c, characterOfToken text = .ok c) ∨
      characterOfToken text = .error (namelessFault text) := by
  unfold characterOfToken
  split
  · exact .inl ⟨_, rfl⟩
  · split
    · exact .inl ⟨_, rfl⟩
    · split
      · split
        · exact .inl ⟨_, rfl⟩
        · exact .inr rfl
      · rename_i hother
        have hhead : text.head? ≠ some 'u' := by
          intro hhead
          obtain ⟨code, rfl⟩ := List.head?_eq_some_iff.mp hhead
          exact hother code rfl
        exact .inr (by rw [namelessFault, if_neg hhead])

theorem characterOfToken_eq_error_iff {text : List Char} {fault : ReadFault} :
    characterOfToken text = .error fault ↔
      (∀ c, ¬ Names text c) ∧ fault = namelessFault text := by
  simp only [← characterOfToken_eq_ok_iff]
  rcases characterOfToken_ok_or_error text with ⟨c, hc⟩ | herror
  · simp [hc]
  · simp [herror, eq_comm]

theorem fails_characterOfToken (text : List Char) (t : Stream) :
    Fails source whole (match characterOfToken text with
      | .ok c => pure (.char c)
      | .error f => failWith f : Read Value) t fun start fault =>
        start = none ∧ characterOfToken text = .error fault := by
  cases characterOfToken text with
  | ok c => exact (Fails.of_ok rfl).congr fun start fault => by simp
  | error g => exact (Fails.of_fail rfl).congr fun start fault => by simp [eq_comm]

theorem fails_character (s : Stream) :
    Fails source whole (character (Dialect.ofSource source)) s fun start fault =>
      start = none ∧ CharacterFault s.input fault := by
  cases hinput : s.input with
  | nil =>
    have hact : character (Dialect.ofSource source) s =
        .error (.error (.fault (.unexpectedEnd "character"))) s := bind_of_ok (next_nil hinput)
    refine (Fails.of_fail hact).congr fun start fault => and_congr_right fun _ => ⟨?_, ?_⟩
    · rintro rfl
      exact .ending
    · rintro ⟨⟩
      rfl
  | cons first input =>
    have hstep := input_step_cons hinput
    refine ((fails_token_bind (some first) (s.step first) _ fails_characterOfToken).of_eq
      (character_cons hinput)).congr fun start fault => ⟨?_, ?_⟩
    · rintro ⟨run, rest, hrun, hmid, rfl, herror⟩
      obtain ⟨hmeaningless, rfl⟩ := characterOfToken_eq_error_iff.mp herror
      rw [← hstep, hmid]
      exact ⟨rfl, .nameless hrun hmeaningless⟩
    · rintro ⟨rfl, hfault⟩
      cases hfault with
      | nameless hrun hmeaningless =>
        exact ⟨_, _, hrun, hstep, rfl, characterOfToken_eq_error_iff.mpr ⟨hmeaningless, rfl⟩⟩

/-! ## 3. Containers -/

def StepFault (input : List Char) (start : Option (List Char)) (fault : ReadFault) : Prop :=
  ∃ q, start = some q ∧ FaultAt q fault (input.dropWhile isBlank)

/-- A step of reading that finds and fails exactly, and keeps the place, in texts shorter than the
bound. -/
structure Pinpoints (source : String) (whole : List Char) (bound : Nat) (act : Read Found) :
    Prop where
  exact : ExactBelow bound act
  tracks : Tracks whole act
  fails : ∀ s : Stream, s.At whole → s.input.length < bound →
    Fails source whole act s (StepFault s.input)

variable {self : Read Found} {bound loops : Nat} {close : Char} {construct : String}
  {read : List Value} {input : List Char}

theorem container_fails_of_end (hinput : s.input.dropWhile isBlank = []) :
    Fails source whole (container self close construct (loops + 1) read) s fun start fault =>
      Reaches (Stuck close construct start fault) s.input := by
  have hskip : s.skipBlanks.input = [] := (Stream.input_skipBlanks s).trans hinput
  refine (Fails.of_fail (container_eq_of_end hskip)).congr fun start fault => ?_
  rw [reaches_iff fun mid => Stuck.dropWhile, hinput]
  constructor
  · rintro ⟨rfl, rfl⟩
    exact .inl .ending
  · rintro (hstuck | ⟨v, mid, hitem, -⟩ | ⟨mid, hitem, -⟩)
    · cases hstuck
      exact ⟨rfl, rfl⟩
    · exact absurd hitem (not_item_of_end hinput (by simp))
    · exact absurd hitem (not_item_of_end hinput (by simp))

theorem container_fails_of_closing (hinput : s.input.dropWhile isBlank = close :: input)
    (hclose : close ∈ [')', ']']) :
    Fails source whole (container self close construct (loops + 1) read) s fun start fault =>
      Reaches (Stuck close construct start fault) s.input := by
  have hskip : s.skipBlanks.input = close :: input := (Stream.input_skipBlanks s).trans hinput
  refine (Fails.of_ok (container_eq_of_closing hskip)).congr fun start fault => ⟨False.elim, ?_⟩
  rw [reaches_iff fun mid => Stuck.dropWhile, hinput]
  rintro (hstuck | ⟨v, mid, hitem, -⟩ | ⟨mid, hitem, -⟩)
  · cases hstuck with
    | inside ongoing => exact ongoing rfl
  · exact not_item_of_closing hclose hinput hitem
  · exact not_item_of_closing hclose hinput hitem

def StuckAfter (close : Char) (construct : String) :
    Found → List Char → Option (List Char) → ReadFault → Prop
  | .ending, _, start, fault => start = none ∧ fault = .unexpectedEnd construct
  | _, input, start, fault => Reaches (Stuck close construct start fault) input

theorem container_fails_of_item {c : Char} (hself : Pinpoints source whole bound self)
    (hinput : s.input.dropWhile isBlank = c :: input) (hc : c ≠ close) (hs : s.At whole)
    (hbound : s.input.length < bound)
    (hmore : ∀ (read : List Value) (t : Stream), t.At whole → t.input.length < s.input.length →
      Fails source whole (container self close construct loops read) t fun start fault =>
        Reaches (Stuck close construct start fault) t.input) :
    Fails source whole (container self close construct (loops + 1) read) s fun start fault =>
      Reaches (Stuck close construct start fault) s.input := by
  have hskip : s.skipBlanks.input = c :: input := (Stream.input_skipBlanks s).trans hinput
  let u := s.skipBlanks.afterPeek
  have hu : u.input = s.input.dropWhile isBlank := by
    rw [Stream.input_afterPeek, Stream.input_skipBlanks]
  have hlength : u.input.length ≤ s.input.length := by
    rw [hu]
    exact (List.dropWhile_sublist isBlank).length_le
  have hat : u.At whole := hs.skipBlanks.afterPeek
  have hitems := hself.exact u (by omega)
  refine ((Fails.bind hitems (hself.fails u hat (by omega)) (StuckAfter close construct)
    fun found t hfound => ?_).of_eq (container_eq_of_item hskip hc)).congr fun start fault => ?_
  · have hitem := hitems.sound hfound
    have hplace := hself.tracks u found t hat hfound
    cases found with
    | form v =>
      have hshorter := hitem.length_lt (by simp)
      exact hmore (v :: read) t hplace (by omega)
    | nothing =>
      have hshorter := hitem.length_lt (by simp)
      exact hmore read t hplace (by omega)
    | ending => exact Fails.of_fail rfl
  · rw [reaches_iff fun mid => Stuck.dropWhile, hinput, stuck_iff hc, StepFault, hu, dropWhile_idem,
      hinput, ← hinput]
    refine or_congr_right ⟨?_, ?_⟩
    · rintro ⟨found, mid, hitem, hstuck⟩
      rw [item_dropWhile] at hitem
      cases found with
      | form v => exact .inl ⟨v, mid, hitem, hstuck⟩
      | nothing => exact .inr ⟨mid, hitem, hstuck⟩
      | ending =>
        rw [Item, hinput] at hitem
        cases hitem.1
    · rintro (⟨v, mid, hitem, hstuck⟩ | ⟨mid, hitem, hstuck⟩)
      · exact ⟨.form v, mid, item_dropWhile.mpr hitem, hstuck⟩
      · exact ⟨.nothing, mid, item_dropWhile.mpr hitem, hstuck⟩

theorem fails_container (hself : Pinpoints source whole bound self) (hclose : close ∈ [')', ']'])
    (construct : String) (loops : Nat) : ∀ (read : List Value) (s : Stream), s.At whole →
      s.input.length < bound → s.input.length < loops →
      Fails source whole (container self close construct loops read) s fun start fault =>
        Reaches (Stuck close construct start fault) s.input := by
  induction loops with
  | zero =>
    intro read s _ _ hloops
    exact absurd hloops (Nat.not_lt_zero _)
  | succ loops ih =>
    intro read s hs hbound hloops
    cases hinput : s.input.dropWhile isBlank with
    | nil => exact container_fails_of_end hinput
    | cons c input =>
      by_cases hc : c = close
      · exact container_fails_of_closing (hc ▸ hinput) hclose
      · exact container_fails_of_item hself hinput hc hs hbound fun read t ht hshorter =>
          ih read t ht (by omega) (by omega)

/-! ## 4. One step -/

theorem fails_run {c : Char} (hc : isDelimiter c = false) (s : Stream) :
    Fails source whole
      (if isNumeric (c :: s.input) then some <$> number (Dialect.ofSource source) (some c)
        else token (Dialect.ofSource source) (some c) >>= fun text =>
          pure (some ((Dialect.ofSource source).symbolValue (String.ofList text)))) s
      (Faulty c s.input) := by
  by_cases hnumber : isNumeric (c :: s.input) = true
  · rw [if_pos hnumber]
    refine ((fails_number c s).map some).congr fun start fault => ?_
    rw [faulty_run_iff hc]
    refine exists_congr fun run => exists_congr fun rest => and_congr_right fun hrun =>
      and_congr_right fun hinput => ?_
    rw [hinput, isNumeric_append hrun] at hnumber
    simp [hnumber]
  · rw [if_neg hnumber]
    refine (fails_token_bind (some c) s (fun _ _ _ => False) fun text t => Fails.of_ok rfl).congr
      fun start fault => ?_
    rw [faulty_run_iff hc]
    refine exists_congr fun run => exists_congr fun rest => and_congr_right fun hrun =>
      and_congr_right fun hinput => ?_
    rw [hinput, isNumeric_append hrun] at hnumber
    simp [hnumber]

theorem fails_comment (self : Read Found) (bound : Nat) (s : Stream) :
    Fails source whole (ReaderMacro.run (Dialect.ofSource source) self bound ';' .comment) s
      (Faulty ';' s.input) := by
  have hact : ReaderMacro.run (Dialect.ofSource source) self bound ';' .comment s =
      .ok none s.skipLine := rfl
  exact (Fails.of_ok hact).congr fun start fault => by simp [not_faulty_comment]

theorem fails_keyword (self : Read Found) (bound : Nat) (s : Stream) :
    Fails source whole (ReaderMacro.run (Dialect.ofSource source) self bound ':' .keyword) s
      (Faulty ':' s.input) := by
  have hact : ReaderMacro.run (Dialect.ofSource source) self bound ':' .keyword =
      token (Dialect.ofSource source) none >>= fun text =>
        pure (some (.keyword (String.ofList text))) := rfl
  rw [hact]
  exact (fails_token_bind none s (fun _ _ _ => False) fun text t => Fails.of_ok rfl).congr
    fun start fault => by simp [not_faulty_keyword]

def QuotedFault (operator : String) : Found → Option (List Char) → ReadFault → Prop
  | .form _, _, _ => False
  | .nothing, start, fault => start = none ∧ fault = .quotedNothing
  | .ending, start, fault => start = none ∧ fault = .unexpectedEnd operator

theorem fails_quote (hself : Pinpoints source whole bound self) {c : Char} {operator : String}
    (hc : quoteOperator c = some operator) (hs : s.At whole) (hbound : s.input.length < bound) :
    Fails source whole (ReaderMacro.run (Dialect.ofSource source) self bound c (.quote operator)) s
      (Faulty c s.input) := by
  refine (Fails.bind (hself.exact s hbound) (hself.fails s hs hbound)
    (fun found _ => QuotedFault operator found) fun found t _ => ?_).congr fun start fault => ?_
  · cases found with
    | form v => exact Fails.of_ok rfl
    | nothing => exact Fails.of_fail rfl
    | ending => exact Fails.of_fail rfl
  · rw [faulty_quote_iff hc]
    constructor
    · rintro (⟨q, rfl, hat⟩ | ⟨found, mid, hitem, hfault⟩)
      · exact .inside hat
      · cases found with
        | form v => exact hfault.elim
        | nothing =>
          obtain ⟨rfl, rfl⟩ := hfault
          exact .comment hitem
        | ending =>
          obtain ⟨rfl, rfl⟩ := hfault
          exact .ending hitem
    · intro hfault
      cases hfault with
      | ending item => exact .inr ⟨_, _, item, rfl, rfl⟩
      | comment item => exact .inr ⟨_, _, item, rfl, rfl⟩
      | inside hat => exact .inl ⟨_, rfl, hat⟩

theorem fails_enclosed (hself : Pinpoints source whole bound self) {c : Char}
    (hbracket : (c, close, construct) ∈ brackets) (hclose : close ∈ [')', ']'])
    (value : List Value → Value) (hs : s.At whole) (hbound : s.input.length < bound) :
    Fails source whole
      (container self close construct bound [] >>= fun vs => pure (some (value vs))) s
      (Faulty c s.input) := by
  rw [bind_pure_some]
  exact ((((fails_container hself hclose construct bound [] s hs hbound hbound).map value).map
    some).congr fun start fault => (faulty_bracket_iff hbracket).symm)

theorem fails_dispatch (hself : Pinpoints source whole bound self) {c : Char}
    (hc : isBlank c = false) (hs : s.At whole) (hbound : s.input.length < bound) :
    Fails source whole (dispatch (Dialect.ofSource source) self bound c) s (Faulty c s.input) := by
  obtain ⟨t, hstart, ht⟩ := startsNumber_eq c s
  have hat := (Advances.startsNumber c).tracks s _ t hs hstart
  have hdispatch := dispatch_eq source self bound hstart
  rw [← ht] at hbound ⊢ hdispatch
  refine Fails.of_eq ?_ hdispatch
  by_cases hmem : c ∈ dispatching
  · rw [not_isNumeric_of_dispatching hmem]
    simp only [dispatching, List.mem_cons, List.not_mem_nil, or_false] at hmem
    rcases hmem with rfl | rfl | rfl | rfl | rfl | rfl | rfl | rfl | rfl | rfl | rfl
    · exact ((fails_string t).map some).congr fun start fault => faulty_string_iff.symm
    · exact fails_comment self bound t
    · exact fails_keyword self bound t
    · exact ((fails_character t).map some).congr fun start fault => faulty_character_iff.symm
    · exact fails_quote hself rfl hat hbound
    · exact fails_quote hself rfl hat hbound
    · exact fails_quote hself rfl hat hbound
    · exact fails_enclosed hself (by decide) (by decide) .list hat hbound
    · exact (Fails.of_fail rfl).congr fun start fault => (faulty_closing_iff (by decide)).symm
    · exact fails_enclosed hself (by decide) (by decide) .vector hat hbound
    · exact (Fails.of_fail rfl).congr fun start fault => (faulty_closing_iff (by decide)).symm
  · have hdelimiter : isDelimiter c = false := by
      rw [isDelimiter, hc, Bool.false_or]
      simpa using hmem
    rw [macroOf_of_not_delimiter hdelimiter]
    exact fails_run hdelimiter t

/-- One step of reading fails at the innermost form at fault, and with its place. -/
theorem pinpoints_step (source : String) (whole : List Char) :
    ∀ level, Pinpoints source whole level (step (Dialect.ofSource source) level)
  | 0 => ⟨finds_step source 0, tracks_step source 0, fun s _ hs => absurd hs (Nat.not_lt_zero _)⟩
  | level + 1 => by
    refine ⟨finds_step source _, tracks_step source _, fun s hs hbound => ?_⟩
    cases hinput : s.skipBlanks.input with
    | nil =>
      refine (Fails.of_ok (step_of_end source level hinput)).congr fun start fault =>
        ⟨False.elim, ?_⟩
      rintro ⟨q, -, c, mid, inner, hcons, -⟩
      rw [← Stream.input_skipBlanks, hinput] at hcons
      cases hcons
    | cons c input =>
      obtain ⟨hskip, hc, hshorter⟩ := starts_of_skipBlanks hinput
      have hinner := input_step_cons hinput
      have hlength : (s.skipBlanks.step c).input.length < level := by
        rw [hinner]
        omega
      have hat := hs.skipBlanks
      -- The place is the one of the form's first character, before anything of it is read.
      have hfails := (fails_dispatch (pinpoints_step source whole level) hc (hat.step hinput)
        hlength).located hat.suffix
      rw [← hat.place, hinner, hinput] at hfails
      have hfinds := (finds_dispatch source (finds_step source level) hc hlength).located
        ⟨source, s.skipBlanks.line, s.skipBlanks.column + 1⟩
      refine ((Fails.bind hfinds hfails (fun _ _ _ _ => False) fun answer t _ =>
        Fails.of_ok rfl).of_eq (step_of_cons source level hinput)).congr fun start fault => ?_
      rw [StepFault, hskip]
      constructor
      · rintro (⟨inner, hfault, rfl⟩ | ⟨_, _, _, hfalse⟩)
        · exact ⟨_, rfl, .of_faulty hfault⟩
        · exact hfalse.elim
      · rintro ⟨q, rfl, d, mid, inner, hcons, hfault, rfl⟩
        obtain ⟨rfl, rfl⟩ := List.cons.inj hcons
        exact .inl ⟨inner, hfault, rfl⟩

/-! ## 5. Forms in sequence -/

def FirstFault (input : List Char) (start : Option (List Char)) (fault : ReadFault) : Prop :=
  ∃ q mid, start = some q ∧ Text input [] mid ∧ FaultAt q fault mid

def FirstFaultAfter : Found → List Char → Option (List Char) → ReadFault → Prop
  | .nothing, input, start, fault => FirstFault input start fault
  | _, _, _, _ => False

theorem firstFault_iff {start : Option (List Char)} {fault : ReadFault} :
    FirstFault input start fault ↔ StepFault input start fault ∨
      ∃ mid, Item input .nothing mid ∧ FirstFault mid start fault := by
  constructor
  · rintro ⟨q, rest, rfl, htext, hat⟩
    rcases (text_iff hat.dropWhile).mp htext with
      ⟨rfl, -⟩ | ⟨_, _, _, -, -, hvs⟩ | ⟨mid, hitem, hmore⟩
    · exact .inl ⟨q, rfl, hat⟩
    · cases hvs
    · exact .inr ⟨mid, hitem, q, rest, rfl, hmore, hat⟩
  · rintro (⟨q, rfl, hat⟩ | ⟨mid, hitem, q, rest, rfl, hmore, hat⟩)
    · exact ⟨q, _, rfl, Text.of_dropWhile (.done _), hat⟩
    · exact ⟨q, rest, rfl, Text.of_dropWhile (.comment hitem hmore), hat⟩

theorem fails_formAfter (hself : Pinpoints source whole bound self) :
    ∀ (loops : Nat) (s : Stream), s.At whole → s.input.length < bound → s.input.length < loops →
      Fails source whole (formAfter self loops) s (FirstFault s.input)
  | 0, s, _, _, hloops => absurd hloops (Nat.not_lt_zero _)
  | loops + 1, s, hs, hbound, hloops => by
    have hitems := hself.exact s hbound
    refine (Fails.bind hitems (hself.fails s hs hbound) FirstFaultAfter
      fun found t hfound => ?_).congr fun start fault => ?_
    · have hitem := hitems.sound hfound
      cases found with
      | form v => exact Fails.of_ok rfl
      | nothing =>
        have hshorter := hitem.length_lt (by simp)
        exact fails_formAfter hself loops t (hself.tracks s _ t hs hfound) (by omega) (by omega)
      | ending => exact Fails.of_ok rfl
    · rw [firstFault_iff]
      refine or_congr_right ⟨?_, ?_⟩
      · rintro ⟨found, mid, hitem, hfault⟩
        cases found with
        | nothing => exact ⟨mid, hitem, hfault⟩
        | form | ending => exact hfault.elim
      · rintro ⟨mid, hitem, hfault⟩
        exact ⟨.nothing, mid, hitem, hfault⟩

def TextFaultAfter : Option Value → List Char → Option (List Char) → ReadFault → Prop
  | some _, input, start, fault => ∃ q, start = some q ∧ TextFault input q fault
  | none, _, _, _ => False

theorem textFault_iff {q : List Char} {fault : ReadFault} :
    TextFault input q fault ↔ FirstFault input (some q) fault ∨
      ∃ v mid, First input (some v) mid ∧ TextFault mid q fault := by
  constructor
  · rintro ⟨vs, rest, htext, hat⟩
    cases vs with
    | nil => exact .inl ⟨q, rest, rfl, htext, hat⟩
    | cons v vs =>
      obtain ⟨mid, hfirst, hmore⟩ := text_cons_iff.mp htext
      exact .inr ⟨v, mid, hfirst, vs, rest, hmore, hat⟩
  · rintro (⟨_, rest, ⟨⟩, htext, hat⟩ | ⟨v, mid, hfirst, vs, rest, hmore, hat⟩)
    · exact ⟨[], rest, htext, hat⟩
    · exact ⟨v :: vs, rest, text_cons_iff.mpr ⟨mid, hfirst, hmore⟩, hat⟩

theorem fails_readRest {level : Nat} :
    ∀ (loops : Nat) (read : List Value) (s : Stream), s.At whole → s.input.length < level →
      s.input.length < loops →
      Fails source whole (readRest (Dialect.ofSource source) level loops read) s
        fun start fault => ∃ q, start = some q ∧ TextFault s.input q fault
  | 0, _, s, _, _, hloops => absurd hloops (Nat.not_lt_zero _)
  | loops + 1, read, s, hs, hlevel, hloops => by
    have hself := pinpoints_step source whole level
    have hfirst := finds_formAfter hself.exact level s hlevel hlevel
    refine (Fails.bind hfirst (fails_formAfter hself level s hs hlevel hlevel) TextFaultAfter
      fun answer t hanswer => ?_).congr fun start fault => ⟨?_, ?_⟩
    · cases answer with
      | some v =>
        have hshorter := (hfirst.sound hanswer).length_lt
        have hafter := advances_formAfter (advances_step source level) level
        have hplace := hafter.tracks s _ t hs hanswer
        exact fails_readRest loops (v :: read) t hplace (by omega) (by omega)
      | none => exact Fails.of_ok rfl
    · rintro (⟨q, rest, rfl, htext, hat⟩ | ⟨answer, mid, hitem, hfault⟩)
      · exact ⟨q, rfl, textFault_iff.mpr (.inl ⟨q, rest, rfl, htext, hat⟩)⟩
      · cases answer with
        | some v =>
          obtain ⟨q, rfl, hmore⟩ := hfault
          exact ⟨q, rfl, textFault_iff.mpr (.inr ⟨v, mid, hitem, hmore⟩)⟩
        | none => exact hfault.elim
    · rintro ⟨q, rfl, hfault⟩
      rcases textFault_iff.mp hfault with hhere | ⟨v, mid, hitem, hmore⟩
      · exact .inl hhere
      · exact .inr ⟨some v, mid, hitem, q, rfl, hmore⟩

theorem fails_readAll (source : String) (text : List Char) :
    Fails source text (readAll (Dialect.ofSource source)) (.ofText text) fun start fault =>
      ∃ q, start = some q ∧ TextFault text q fault := by
  have hallowance : text.length < allowance (.ofText text) := Nat.lt_add_of_pos_right (by decide)
  exact (fails_readRest _ [] (.ofText text) (.start text) hallowance hallowance).of_eq rfl

theorem fails_readOne (source : String) (text : List Char) :
    Fails source text (readOne (Dialect.ofSource source)) (.ofText text) (FirstFault text) := by
  have hallowance : text.length < allowance (.ofText text) := Nat.lt_add_of_pos_right (by decide)
  exact (fails_formAfter (pinpoints_step source text _) _ (.ofText text) (.start text) hallowance
    hallowance).of_eq rfl

end Grammar

/-! ## 6. Reading a text -/

theorem ofText_eq_error_iff {α : Type} {act : Read α} {text : String} {stop : Stop} :
    ofText act text = .error stop ↔ ∃ t, act (.ofText text.toList) = .error stop t := by
  unfold ofText
  split <;> simp_all

theorem readOne_of_malformed (source : String) {c : Char} {q : List Char} {fault : ReadFault}
    (h : Grammar.Malformed c q fault) :
    ofText (readOne (Dialect.ofSource source)) (String.ofList (c :: q)) =
      .error (.error (.read fault (some ⟨source, 1, 1⟩))) := by
  have hfault : Grammar.FirstFault (c :: q) (some (c :: q)) fault :=
    ⟨c :: q, c :: q, rfl, .done _, .of_faulty (.itself h)⟩
  obtain ⟨t, ht⟩ := (Grammar.fails_readOne source (c :: q)).complete hfault
  have hplace : placeOf source (c :: q) (c :: q) = ⟨source, 1, 1⟩ :=
    placeOf_append source [] (c :: q)
  rw [Option.map_some, hplace] at ht
  refine ofText_eq_error_iff.mpr ⟨t, ?_⟩
  rwa [String.toList_ofList]

/-- Reading a text fails exactly when the text has a malformed form behind well-formed forms and
comments, at any depth.  The error names the line and the column of the first character of the
innermost such form, which is the fault of that form: read alone, it fails in the same way. -/
theorem read_error_located (source text : String) (stop : Stop) :
    ofText (readAll (Dialect.ofSource source)) text = .error stop ↔
      ∃ p c q fault, text.toList = p ++ c :: q ∧ isBlank c = false ∧
        Grammar.TextFault text.toList (c :: q) fault ∧ Grammar.Malformed c q fault ∧
        stop = .error (.read fault (some ⟨source, 1 + p.count '\n', 1 + columnsBehind p⟩)) ∧
        ofText (readOne (Dialect.ofSource source)) (String.ofList (c :: q)) =
          .error (.error (.read fault (some ⟨source, 1, 1⟩))) := by
  have hfails := Grammar.fails_readAll source text.toList
  rw [ofText_eq_error_iff]
  constructor
  · rintro ⟨t, ht⟩
    obtain ⟨e, rfl⟩ := (Grammar.finds_readAll source (.ofText text.toList)).total ht
    obtain ⟨_, fault, ⟨q, rfl, hfault⟩, hsuffix, rfl⟩ := hfails.sound ht
    obtain ⟨c, rest, rfl, hmalformed⟩ := hfault.malformed
    obtain ⟨p, hsplit⟩ := hsuffix _ rfl
    refine ⟨p, c, rest, fault, hsplit.symm, hmalformed.starts.1, hfault, hmalformed, ?_,
      readOne_of_malformed source hmalformed⟩
    rw [Option.map_some, ← hsplit, placeOf_append]
    rfl
  · rintro ⟨p, c, q, fault, hsplit, -, hfault, -, rfl, -⟩
    obtain ⟨t, ht⟩ := hfails.complete ⟨_, rfl, hfault⟩
    rw [Option.map_some, hsplit, placeOf_append, ← hsplit] at ht
    exact ⟨t, ht⟩

/-- The string is what does not end, in a vector in a list on the second line. -/
example : readAllText "; one\n(a '[b \x22c)" =
    .error (.error (.read (.unexpectedEnd "string") (some ⟨"<string>", 2, 8⟩))) := by
  cbv

end Lisp.Reader
