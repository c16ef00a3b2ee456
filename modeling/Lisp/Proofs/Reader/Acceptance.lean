import Lisp.Proofs.Reader.Step

/-!
# What the reader accepts

Reading a whole text succeeds on exactly the texts of the grammar, with the forms they mean, and ends
in an error on all others.  The grammar is unambiguous because one reading step gives one answer.
-/

namespace Lisp.Reader

namespace Grammar

variable {source : String} {input mid rest : List Char}

/-! ## 1. Forms in sequence -/

def FirstAfter : Found → List Char → Option Value → List Char → Prop
  | .form v, input, answer, rest => answer = some v ∧ rest = input
  | .nothing, input, answer, rest => First input answer rest
  | .ending, input, answer, rest => answer = none ∧ rest = input

theorem finds_formAfter {self : Read Found} {bound : Nat} (hself : ExactBelow bound self) :
    ∀ (loops : Nat) (s : Stream), s.input.length < bound → s.input.length < loops →
      Finds (formAfter self loops) s (First s.input)
  | 0, s, _, hloops => absurd hloops (Nat.not_lt_zero _)
  | loops + 1, s, hbound, hloops => by
    have hitems := hself s hbound
    -- A comment makes the text shorter, which pays for one more loop.
    refine (hitems.bind FirstAfter fun found t hfound => ?_).congr
      fun answer rest => ⟨?_, fun hfirst => ?_⟩
    · have hitem := hitems.sound hfound
      cases found with
      | form v => exact Finds.of_ok rfl
      | nothing =>
        have hshorter := hitem.length_lt (by simp)
        exact finds_formAfter hself loops t (by omega) (by omega)
      | ending => exact Finds.of_ok rfl
    · rintro ⟨found, mid, hitem, hanswer⟩
      cases found with
      | form v =>
        obtain ⟨rfl, rfl⟩ := hanswer
        exact .form hitem
      | nothing => exact .nothing hitem hanswer
      | ending =>
        obtain ⟨rfl, rfl⟩ := hanswer
        exact .ending hitem
    · cases hfirst with
      | form item => exact ⟨_, _, item, rfl, rfl⟩
      | nothing item more => exact ⟨_, _, item, more⟩
      | ending item => exact ⟨_, _, item, rfl, rfl⟩

def FormsAfter (read : List Value) : Option Value → List Char → List Value → List Char → Prop
  | some v, input, vs, rest =>
    (∃ ws, Text input ws [] ∧ vs = (v :: read).reverse ++ ws) ∧ rest = []
  | none, input, vs, rest => vs = read.reverse ∧ rest = input

theorem finds_readRest {level : Nat} :
    ∀ (loops : Nat) (read : List Value) (s : Stream), s.input.length < level →
      s.input.length < loops →
      Finds (readRest (Dialect.ofSource source) level loops read) s fun vs rest =>
        (∃ ws, Text s.input ws [] ∧ vs = read.reverse ++ ws) ∧ rest = []
  | 0, _, s, _, hloops => absurd hloops (Nat.not_lt_zero _)
  | loops + 1, read, s, hlevel, hloops => by
    have hfirst := finds_formAfter (finds_step source level) level s hlevel hlevel
    refine (hfirst.bind (FormsAfter read) fun answer t hanswer => ?_).congr
      fun vs rest => ⟨?_, ?_⟩
    · cases answer with
      | some v =>
        -- A form takes a character at least, so the loops never run out.
        have hshorter := (hfirst.sound hanswer).length_lt
        exact finds_readRest loops (v :: read) t (by omega) (by omega)
      | none => exact Finds.of_ok rfl
    · rintro ⟨answer, mid, hfirst, hvs⟩
      cases answer with
      | some v =>
        obtain ⟨⟨ws, htext, rfl⟩, rfl⟩ := hvs
        refine ⟨⟨v :: ws, text_iff_first.mpr (.inr ⟨v, mid, ws, hfirst, htext, rfl⟩), ?_⟩, rfl⟩
        rw [reverse_cons_append]
      | none =>
        obtain ⟨rfl, rfl⟩ := hvs
        obtain rfl := hfirst.rest_eq
        exact ⟨⟨[], text_iff_first.mpr (.inl ⟨hfirst, rfl⟩), (List.append_nil _).symm⟩, rfl⟩
    · rintro ⟨⟨ws, htext, hvs⟩, rfl⟩
      rcases text_iff_first.mp htext with ⟨hnone, rfl⟩ | ⟨v, mid, us, hsome, hmore, rfl⟩
      · exact ⟨none, [], hnone, by simpa using hvs, rfl⟩
      · refine ⟨some v, mid, hsome, ⟨us, hmore, ?_⟩, rfl⟩
        rw [hvs, reverse_cons_append]

theorem finds_readAll (source : String) (s : Stream) :
    Finds (readAll (Dialect.ofSource source)) s fun vs rest => Text s.input vs [] ∧ rest = [] := by
  have hallowance : s.input.length < allowance s := Nat.lt_add_of_pos_right (by decide)
  have hact : readAll (Dialect.ofSource source) s =
      readRest (Dialect.ofSource source) (allowance s) (allowance s) [] s := rfl
  refine ((finds_readRest (allowance s) [] s hallowance hallowance).of_eq hact).congr
    fun vs rest => ?_
  simp

/-! ## 2. Unambiguity -/

def Unambiguous (form : List Char → Value → List Char → Prop) : Prop :=
  ∀ input v rest v' rest', form input v rest → form input v' rest' → v = v' ∧ rest = rest'

theorem unambiguous_form : Unambiguous Form := by
  intro input v rest v' rest' hform hform'
  have hstep := finds_step "" (input.length + 1) (.ofText input) (Nat.lt_succ_self _)
  obtain ⟨t, hfound, rfl⟩ := hstep.complete hform.item
  obtain ⟨t', hfound', rfl⟩ := hstep.complete hform'.item
  rw [hfound] at hfound'
  cases hfound'
  exact ⟨rfl, rfl⟩

end Grammar

/-! ## 3. Reading a text -/

theorem ofText_eq_ok_iff {α : Type} {act : Read α} {text : String} {a : α} :
    ofText act text = .ok a ↔ ∃ t, act (.ofText text.toList) = .ok a t := by
  unfold ofText
  split <;> simp_all

theorem ofText_error {α : Type} {act : Read α} {text : String} {stop : Stop} {t : Stream}
    (h : act (.ofText text.toList) = .error stop t) : ofText act text = .error stop := by
  unfold ofText
  rw [h]

theorem readAllText_eq_ok_iff {text : String} {vs : List Value} :
    readAllText text = .ok vs ↔ Grammar.Text text.toList vs [] := by
  have hread := Grammar.finds_readAll "<string>" (.ofText text.toList)
  refine ofText_eq_ok_iff.trans ⟨?_, fun hmeans => ?_⟩
  · rintro ⟨t, ht⟩
    exact (hread.sound ht).1
  · obtain ⟨t, ht, -⟩ := hread.complete ⟨hmeans, rfl⟩
    exact ⟨t, ht⟩

theorem readAllText_ok_or_error (text : String) :
    (∃ vs, readAllText text = .ok vs) ∨ ∃ e, readAllText text = .error (.error e) := by
  have hread := Grammar.finds_readAll "<string>" (.ofText text.toList)
  rcases hread.ok_or_error with ⟨vs, t, ht⟩ | ⟨e, t, ht⟩
  · exact .inl ⟨vs, ofText_eq_ok_iff.mpr ⟨t, ht⟩⟩
  · exact .inr ⟨e, ofText_error ht⟩

/-- Reading a text succeeds with exactly the forms that it means in the grammar; a text that means
nothing is refused with an error; and no text means two things, as a whole or at its front. -/
theorem readAllText_accepts_grammar (text : String) :
    (∀ vs, readAllText text = .ok vs ↔ Grammar.Text text.toList vs []) ∧
    ((∃ vs, Grammar.Text text.toList vs []) ∨ ∃ e, readAllText text = .error (.error e)) ∧
    (∀ vs ws, Grammar.Text text.toList vs [] → Grammar.Text text.toList ws [] → vs = ws) ∧
    Grammar.Unambiguous Grammar.Form := by
  refine ⟨fun vs => readAllText_eq_ok_iff, ?_, fun vs ws hvs hws => ?_, Grammar.unambiguous_form⟩
  · rcases readAllText_ok_or_error text with ⟨vs, hvs⟩ | herror
    · exact .inl ⟨vs, readAllText_eq_ok_iff.mp hvs⟩
    · exact .inr herror
  · have hsame := (readAllText_eq_ok_iff.mpr hvs).symm.trans (readAllText_eq_ok_iff.mpr hws)
    cases hsame
    rfl

end Lisp.Reader
