import Lisp.Proofs.Reader.Moves

/-!
# Dialects that agree on a text

A reader looks at its macros only for characters that the text has: to dispatch on one, and to see
where a token ends.  So a dialect that agrees with the standard one on those characters reads the text
alike, `readAll_of_agrees`, whatever else it does; and what becomes of the macro of any other character
does not matter, `readAll_setMacro_of_not_mem`.

`SameOver` says that two operations do the same on texts of the given characters.  Behind an operation
that advances the text is one of these again, which is what carries the rule for sequences.
-/

namespace Lisp.Reader

variable {α β : Type} {source : String} {has : Char → Prop} {s : Stream}

/-! ## 1. Operations that do the same -/

def Stream.Over (has : Char → Prop) (s : Stream) : Prop := ∀ c ∈ s.input, has c

theorem Stream.Moves.over {t : Stream} (h : s.Moves t) (hs : s.Over has) : t.Over has :=
  fun c hc => hs c (h.suffix.subset hc)

def SameOver (has : Char → Prop) (act act' : Read α) : Prop :=
  ∀ s : Stream, s.Over has → act s = act' s

namespace SameOver

variable {act act' : Read α} {f f' : α → Read β}

theorem refl (act : Read α) : SameOver has act act := fun _ _ => rfl

theorem bind (hact : SameOver has act act') (hadvances : Advances act)
    (hf : ∀ a, SameOver has (f a) (f' a)) : SameOver has (act >>= f) (act' >>= f') := by
  intro s hs
  have hbehind := (hadvances s).over hs
  rw [bind_eq, bind_eq, ← hact s hs]
  cases hresult : act s with
  | ok a t =>
    rw [hresult] at hbehind
    exact hf a t hbehind
  | error stop t => rfl

theorem map (hact : SameOver has act act') (hadvances : Advances act) (g : α → β) :
    SameOver has (g <$> act) (g <$> act') := by
  rw [← bind_pure_comp, ← bind_pure_comp]
  exact hact.bind hadvances fun a => refl _

theorem located (hact : SameOver has act act') (start : Position) :
    SameOver has (Reader.located start act) (Reader.located start act') := by
  intro s hs
  unfold Reader.located
  rw [hact s hs]

end SameOver

/-! ## 2. Dialects that agree -/

structure Dialect.Agrees (source : String) (has : Char → Prop) (d : Dialect) : Prop where
  named : d.source = source
  predefined : d.predefined = standardPredefined
  hook : d.hook = none
  macros : ∀ c, has c → d.macroOf c = (Dialect.ofSource source).macroOf c

variable {d : Dialect} {self self' : Read Found}

theorem takeWhile_congr {p q : α → Bool} {items : List α} (h : ∀ a ∈ items, p a = q a) :
    items.takeWhile p = items.takeWhile q := by
  induction items with
  | nil => rfl
  | cons a items ih =>
    obtain ⟨ha, hitems⟩ := List.forall_mem_cons.mp h
    rw [List.takeWhile_cons, List.takeWhile_cons, ha, ih hitems]

theorem sameOver_token (h : d.Agrees source has) (first : Option Char) :
    SameOver has (token (Dialect.ofSource source) first) (token d first) := by
  intro s hs
  have hends : ∀ c ∈ s.input,
      (!(Dialect.ofSource source).isTerminal c) = !d.isTerminal c := by
    intro c hc
    rw [Dialect.isTerminal, Dialect.isTerminal, h.macros c (hs c hc)]
  simp only [token, Stream.token, takeWhile_congr hends]

theorem sameOver_number (h : d.Agrees source has) (first : Option Char) :
    SameOver has (number (Dialect.ofSource source) first) (number d first) :=
  (sameOver_token h first).bind (Advances.token _ first) fun _ => .refl _

theorem sameOver_character (h : d.Agrees source has) :
    SameOver has (character (Dialect.ofSource source)) (character d) := by
  refine SameOver.bind (.refl _) Advances.next fun first => ?_
  cases first with
  | none => exact .refl _
  | some first =>
    exact (sameOver_token h (some first)).bind (Advances.token _ _) fun _ => .refl _

theorem sameOver_container (hself : SameOver has self self') (hadvances : Advances self)
    (close : Char) (construct : String) : ∀ (loops : Nat) (read : List Value),
      SameOver has (container self close construct loops read)
        (container self' close construct loops read)
  | 0, _ => .refl _
  | loops + 1, read => by
    intro s hs
    cases hinput : s.skipBlanks.input with
    | nil => rw [Grammar.container_eq_of_end hinput, Grammar.container_eq_of_end hinput]
    | cons c input =>
      by_cases hc : c = close
      · subst hc
        rw [Grammar.container_eq_of_closing hinput, Grammar.container_eq_of_closing hinput]
      · rw [Grammar.container_eq_of_item hinput hc, Grammar.container_eq_of_item hinput hc]
        refine hself.bind hadvances (fun found => ?_) _ (s.moves_skipBlanks.afterPeek.over hs)
        cases found with
        | form v => exact sameOver_container hself hadvances close construct loops (v :: read)
        | nothing => exact sameOver_container hself hadvances close construct loops read
        | ending => exact .refl _

theorem sameOver_formAfter (hself : SameOver has self self') (hadvances : Advances self) :
    ∀ loops, SameOver has (formAfter self loops) (formAfter self' loops)
  | 0 => .refl _
  | loops + 1 => by
    refine hself.bind hadvances fun found => ?_
    cases found with
    | form v => exact .refl _
    | nothing => exact sameOver_formAfter hself hadvances loops
    | ending => exact .refl _

theorem sameOver_macro (h : d.Agrees source has) (hself : SameOver has self self')
    (hadvances : Advances self) (loops : Nat) (c : Char) {m : ReaderMacro}
    (hm : ∀ script, m ≠ .custom script) :
    SameOver has (m.run (Dialect.ofSource source) self loops c) (m.run d self' loops c) := by
  cases m with
  | string | comment | unmatched => exact .refl _
  | keyword => exact (sameOver_token h none).bind (Advances.token _ none) fun _ => .refl _
  | character => exact (sameOver_character h).map (Advances.character _) some
  | quote operator => exact hself.bind hadvances fun _ => .refl _
  | list =>
    exact (sameOver_container hself hadvances ')' "list" loops []).bind
      (advances_container hadvances _ _ loops []) fun _ => .refl _
  | vector =>
    exact (sameOver_container hself hadvances ']' "vector" loops []).bind
      (advances_container hadvances _ _ loops []) fun _ => .refl _
  | custom script => exact absurd rfl (hm script)

theorem sameOver_dispatch (h : d.Agrees source has) (hself : SameOver has self self')
    (hadvances : Advances self) (loops : Nat) {c : Char} (hc : has c) :
    SameOver has (dispatch (Dialect.ofSource source) self loops c) (dispatch d self' loops c) := by
  refine SameOver.bind (.refl _) (Advances.startsNumber c) fun isNumber => ?_
  split
  · exact (sameOver_number h (some c)).map (Advances.number _ _) some
  · -- The character stands in the text, so its macro is the standard one.
    rw [h.macros c hc, h.hook]
    cases hfound : (Dialect.ofSource source).macroOf c with
    | some m => exact sameOver_macro h hself hadvances loops c (standardMacros_not_custom hfound)
    | none =>
      have hsymbol : d.symbolValue = (Dialect.ofSource source).symbolValue := by
        funext token
        rw [Dialect.symbolValue, h.predefined]
        rfl
      rw [hsymbol]
      let found (text : List Char) : Read (Option Value) :=
        pure (some ((Dialect.ofSource source).symbolValue (String.ofList text)))
      have htoken : SameOver has (token (Dialect.ofSource source) (some c) >>= found)
          (token d (some c) >>= found) :=
        (sameOver_token h (some c)).bind (Advances.token _ _) fun _ => .refl _
      exact htoken

theorem sameOver_next_bind {f f' : Option Char → Read β} (hnone : SameOver has (f none) (f' none))
    (hsome : ∀ c, has c → SameOver has (f (some c)) (f' (some c))) :
    SameOver has (next >>= f) (next >>= f') := by
  intro s hs
  cases hinput : s.input with
  | nil =>
    rw [bind_of_ok (Grammar.next_nil hinput), bind_of_ok (Grammar.next_nil hinput)]
    exact hnone s hs
  | cons c input =>
    rw [bind_of_ok (Grammar.next_cons hinput), bind_of_ok (Grammar.next_cons hinput)]
    have hc : has c := hs c (by rw [hinput]; exact List.mem_cons_self)
    exact hsome c hc _ ((Stream.moves_step hinput).over hs)

theorem sameOver_step (h : d.Agrees source has) : ∀ level,
    SameOver has (step (Dialect.ofSource source) level) (step d level)
  | 0 => .refl _
  | level + 1 => by
    have hself := sameOver_step h level
    have hadvances := advances_step source level
    have hposition : position d = position (Dialect.ofSource source) := by
      rw [position, h.named, position]
    rw [step, step, withRoom_eq, withRoom_eq, hposition]
    refine SameOver.bind (.refl _) Stream.moves_skipBlanks fun _ => ?_
    refine SameOver.bind (.refl _) (fun _ => .refl) fun start => ?_
    refine sameOver_next_bind (.refl _) fun c hc => ?_
    have hdispatch := sameOver_dispatch h hself hadvances level hc
    exact (hdispatch.located start).bind ((advances_dispatch source hadvances level c).located start)
      fun _ => .refl _

theorem sameOver_readRest (h : d.Agrees source has) (level : Nat) :
    ∀ (loops : Nat) (read : List Value), SameOver has
      (readRest (Dialect.ofSource source) level loops read) (readRest d level loops read)
  | 0, _ => .refl _
  | loops + 1, read => by
    have hadvances := advances_step source level
    refine (sameOver_formAfter (sameOver_step h level) hadvances level).bind
      (advances_formAfter hadvances level) fun answer => ?_
    cases answer with
    | some v => exact sameOver_readRest h level loops (v :: read)
    | none => exact .refl _

/-! ## 3. Reading a text -/

/-- A dialect that agrees on the characters of the text reads it like the standard one, from the same
forms or the same error down to the place that it leaves. -/
theorem readAll_of_agrees (h : d.Agrees source (· ∈ s.input)) :
    readAll d s = readAll (Dialect.ofSource source) s :=
  (sameOver_readRest h (allowance s) (allowance s) [] s fun _ hc => hc).symm

theorem macroOf_setMacro_of_ne (d : Dialect) {c k : Char} (h : k ≠ c) (m : Option ReaderMacro) :
    (d.setMacro c m).macroOf k = d.macroOf k := by
  have hothers : (d.macros.filter (·.1 ≠ c)).lookup k = d.macros.lookup k := by
    induction d.macros with
    | nil => rfl
    | cons entry entries ih =>
      obtain ⟨letter, found⟩ := entry
      by_cases hletter : letter = c
      · have hk : (k == letter) = false := by simp [hletter, h]
        rw [List.filter_cons_of_neg (by simpa using hletter), List.lookup_cons, hk]
        exact ih
      · rw [List.filter_cons_of_pos (by simpa using hletter), List.lookup_cons, List.lookup_cons, ih]
  cases m with
  | none => exact hothers
  | some m =>
    have hk : (k == c) = false := by simp [h]
    show List.lookup k ((c, m) :: d.macros.filter (·.1 ≠ c)) = _
    rw [List.lookup_cons, hk]
    exact hothers

theorem agrees_setMacro {c : Char} (hc : ¬ has c) (m : Option ReaderMacro) :
    ((Dialect.ofSource source).setMacro c m).Agrees source has where
  named := rfl
  predefined := rfl
  hook := rfl
  macros := by
    intro k hk
    have hne : k ≠ c := fun heq => hc (heq ▸ hk)
    exact macroOf_setMacro_of_ne _ hne m

/-- What becomes of the macro of a character that the text does not have, whether it is installed,
replaced or removed, does not matter to reading the text. -/
theorem readAll_setMacro_of_not_mem (source : String) {c : Char} {s : Stream} (hc : c ∉ s.input)
    (m : Option ReaderMacro) :
    readAll ((Dialect.ofSource source).setMacro c m) s = readAll (Dialect.ofSource source) s :=
  readAll_of_agrees (agrees_setMacro hc m)

/-- An opening bracket that drops itself and what follows it. -/
theorem readAll_setMacro_bracket :
    '[' ∉ (Stream.ofText "(a 'b)".toList).input ∧
    readAll (Dialect.standard.setMacro '[' (some (.custom fun _ => .next fun _ => .done none)))
        (.ofText "(a 'b)".toList) =
      .ok [.list [.symbol "a", .list [.symbol "quote", .symbol "b"]]] ⟨[], 1, 6, 5⟩ := by
  have habsent : '[' ∉ (Stream.ofText "(a 'b)".toList).input := by decide
  refine ⟨habsent, (readAll_setMacro_of_not_mem "<string>" habsent _).trans ?_⟩
  cbv

end Lisp.Reader
