import Lisp.Proofs.Eval.Journal

/-!
# Corresponding activities

Two activities that ask different things of the interpreter may still come to the same: whatever one
of them ends in, given enough levels, the other ends in as well, in a state that differs only in the
journal, `Corresponds`.  Such activities are compared part by part (`Corresponds.bind`), with a
relation between the intermediate results.

The two need not take the same number of levels.  What an activity ends in does not change with more
levels if it uses the interpreter for its requests only, `Uniform`.
-/

namespace Lisp.Interpreter

variable {α β γ δ : Type} {config : Config} {s t u : State}

/-! ## 1. What an activity ends in -/

/-- What an activity ends in, if some number of levels is enough for its requests. -/
def Ends (config : Config) (act : Interpreter → Eval α) (s : State)
    (result : EStateM.Result Stop State α) : Prop :=
  ∃ levels, act (interpret config levels) s = result ∧ ¬ Exhausted result

/-- What an activity ends in with every number of levels from some number on. -/
def Settles (config : Config) (act : Interpreter → Eval α) (s : State)
    (result : EStateM.Result Stop State α) : Prop :=
  (∃ enough, ∀ levels, enough ≤ levels → act (interpret config levels) s = result) ∧
    ¬ Exhausted result

/-- An activity that does the same with any two interpreters that answer alike. -/
def Uniform (config : Config) (act : Interpreter → Eval α) : Prop :=
  ∀ ⦃R : State → State → Prop⦄, Compatible config R → ∀ ⦃below below' : Interpreter⦄,
    (∀ r, Simulates R (below r) (below' r)) → Simulates R (act below) (act below')

variable {act : Interpreter → Eval α} {act' : Interpreter → Eval β}
  {f : α → Interpreter → Eval γ} {f' : β → Interpreter → Eval δ}

theorem Settles.ends {result : EStateM.Result Stop State α} (h : Settles config act s result) :
    Ends config act s result := by
  obtain ⟨⟨enough, hlevels⟩, hresult⟩ := h
  exact ⟨enough, hlevels enough (Nat.le_refl enough), hresult⟩

namespace Uniform

theorem request (r : Request) : Uniform config fun below => below r :=
  fun _ _ _ _ hbelow => hbelow r

theorem settles_self (hact : Uniform config act) {result : EStateM.Result Stop State α}
    (h : Ends config act s result) : Settles config act s result := by
  obtain ⟨levels, rfl, hresult⟩ := h
  refine ⟨⟨levels, fun more hle => ?_⟩, hresult⟩
  have hmore := hact (compatible_eq config) (interpret_simulates (compatible_eq config) hle) s s rfl
  exact (hmore.resolve_left hresult).eq.symm

theorem settles (hact : Uniform config act) {result : EStateM.Result Stop State α}
    (h : Ends config act s result) (hst : Alike s t) :
    ∃ result', Settles config act t result' ∧ Agree Alike result result' := by
  obtain ⟨levels, rfl, hresult⟩ := h
  have hsimulates := hact (compatible_alike config)
    (interpret_simulates (compatible_alike config) (Nat.le_refl levels)) s t hst
  have hagree := hsimulates.resolve_left hresult
  exact ⟨_, hact.settles_self ⟨levels, rfl, hagree.not_exhausted hresult⟩, hagree⟩

theorem unique (hact : Uniform config act) {result result' : EStateM.Result Stop State α}
    (h : Ends config act s result) (h' : Ends config act s result') : result = result' := by
  obtain ⟨⟨enough, hlevels⟩, -⟩ := hact.settles_self h
  obtain ⟨⟨enough', hlevels'⟩, -⟩ := hact.settles_self h'
  rw [← hlevels (enough + enough') (Nat.le_add_right enough enough'),
    hlevels' (enough + enough') (Nat.le_add_left enough' enough)]

theorem ok_alike (hact : Uniform config act) {a b : α} {u' : State}
    (h : Ends config act s (.ok a u)) (hsu : Alike s u) (hst : Alike s t)
    (h' : Ends config act t (.ok b u')) : b = a ∧ Alike s u' := by
  obtain ⟨result, hresult, hagree⟩ := hact.settles h hst
  cases hact.unique h' hresult.ends
  cases hagree with
  | ok _ hstates => exact ⟨rfl, hsu.trans hstates⟩

end Uniform

theorem Ends.of_bind {result : EStateM.Result Stop State γ}
    (h : Ends config (fun below => act below >>= fun a => f a below) s result) :
    (∃ a t, Ends config act s (.ok a t) ∧ Ends config (f a) t result) ∨
      ∃ stop t, Ends config act s (.error stop t) ∧ result = .error stop t := by
  obtain ⟨levels, hlevels, hresult⟩ := h
  cases hact : act (interpret config levels) s with
  | ok a t =>
    exact .inl ⟨a, t, ⟨levels, hact, id⟩, levels, (bind_of_ok hact).symm.trans hlevels, hresult⟩
  | error stop t =>
    have hstop : .error stop t = result := (bind_of_error hact).symm.trans hlevels
    rw [← hstop, exhausted_error_iff] at hresult
    exact .inr ⟨stop, t, ⟨levels, hact, hresult ∘ exhausted_error_iff.mp⟩, hstop.symm⟩

theorem Settles.bind {a : α} {result : EStateM.Result Stop State γ}
    (hact : Settles config act s (.ok a t)) (hf : Settles config (f a) t result) :
    Settles config (fun below => act below >>= fun a => f a below) s result := by
  obtain ⟨⟨enough, hlevels⟩, -⟩ := hact
  obtain ⟨⟨enough', hlevels'⟩, hresult⟩ := hf
  -- Levels that are enough for both parts one after the other.
  refine ⟨⟨enough + enough', fun levels hle => ?_⟩, hresult⟩
  exact (bind_of_ok (hlevels levels (by omega))).trans (hlevels' levels (by omega))

theorem Settles.bind_error {stop : Stop} (hact : Settles config act s (.error stop t)) :
    Settles config (fun below => act below >>= fun a => f a below) s (.error stop t) := by
  obtain ⟨⟨enough, hlevels⟩, hresult⟩ := hact
  refine ⟨⟨enough, fun levels hle => bind_of_error (hlevels levels hle)⟩, ?_⟩
  rw [exhausted_error_iff] at hresult ⊢
  exact hresult

theorem ends_level {r : Request} {result : EStateM.Result Stop State r.Result}
    (h : Ends config (fun below => below r) s result) :
    Ends config (fun below => level config below r) s result := by
  obtain ⟨levels, rfl, hresult⟩ := h
  cases levels with
  | zero => exact absurd trivial hresult
  | succ levels =>
    rw [interpret_succ] at hresult ⊢
    exact ⟨levels, rfl, hresult⟩

theorem settles_request {r : Request} {result : EStateM.Result Stop State r.Result}
    (h : Settles config (fun below => level config below r) s result) :
    Settles config (fun below => below r) s result := by
  obtain ⟨⟨enough, hlevels⟩, hresult⟩ := h
  refine ⟨⟨enough + 1, fun levels hle => ?_⟩, hresult⟩
  obtain ⟨levels, rfl⟩ := Nat.exists_eq_add_of_le' hle
  rw [← Nat.add_assoc, interpret_succ]
  exact hlevels (levels + enough) (Nat.le_add_left enough levels)

/-! ## 2. Correspondence -/

/-- Two results that are related, or one and the same failure, in states that differ in the journal at
most. -/
inductive Matches (Q : α → β → Prop) :
    EStateM.Result Stop State α → EStateM.Result Stop State β → Prop where
  | ok {a : α} {b : β} (hQ : Q a b) {s t : State} (h : Alike s t) : Matches Q (.ok a s) (.ok b t)
  | error (stop : Stop) {s t : State} (h : Alike s t) : Matches Q (.error stop s) (.error stop t)

theorem Matches.of_agree {Q : α → α → Prop} (hQ : ∀ a, Q a a)
    {result result' : EStateM.Result Stop State α} (h : Agree Alike result result') :
    Matches Q result result' := by
  cases h with
  | ok a h => exact .ok (hQ a) h
  | error stop h => exact .error stop h

theorem Matches.agree {result result' : EStateM.Result Stop State α}
    (h : Matches Eq result result') : Agree Alike result result' := by
  cases h with
  | ok hQ h =>
    cases hQ
    exact .ok _ h
  | error stop h => exact .error stop h

theorem Matches.agree_flip {result result' : EStateM.Result Stop State α}
    (h : Matches (flip Eq) result' result) : Agree Alike result result' := by
  cases h with
  | ok hQ h =>
    cases hQ
    exact .ok _ h.symm
  | error stop h => exact .error stop h.symm

def Follows (config : Config) (Q : α → β → Prop) (act : Interpreter → Eval α)
    (act' : Interpreter → Eval β) (s t : State) : Prop :=
  ∀ result, Ends config act s result →
    ∃ result', Settles config act' t result' ∧ Matches Q result result'

def Corresponds (config : Config) (Q : α → β → Prop) (act : Interpreter → Eval α)
    (act' : Interpreter → Eval β) (s t : State) : Prop :=
  Follows config Q act act' s t ∧ Follows config (flip Q) act' act t s

/-- Activities in two parts are compared part by part.  The second parts are started with results that
the first parts end in. -/
theorem Follows.bind {Q : α → β → Prop} {Q' : γ → δ → Prop}
    (hact : Follows config Q act act' s t)
    (hf : ∀ a b s' t', Ends config act s (.ok a s') → Ends config act' t (.ok b t') → Q a b →
      Alike s' t' → Follows config Q' (f a) (f' b) s' t') :
    Follows config Q' (fun below => act below >>= fun a => f a below)
      (fun below => act' below >>= fun b => f' b below) s t := by
  intro result hresult
  -- Either both first parts give a result and the second parts follow, or both fail alike.
  obtain ⟨a, s', ha, hresult⟩ | ⟨stop, s', herror, rfl⟩ := hresult.of_bind
  · obtain ⟨result', hsettles, hmatches⟩ := hact _ ha
    cases hmatches with
    | ok hQ hst =>
      obtain ⟨result', hsettles', hmatches⟩ := hf _ _ _ _ ha hsettles.ends hQ hst result hresult
      exact ⟨result', hsettles.bind hsettles', hmatches⟩
  · obtain ⟨result', hsettles, hmatches⟩ := hact _ herror
    cases hmatches with
    | error _ hst => exact ⟨_, hsettles.bind_error, .error stop hst⟩

namespace Corresponds

variable {Q : α → β → Prop} {Q' : γ → δ → Prop}

theorem bind (hact : Corresponds config Q act act' s t)
    (hf : ∀ a b s' t', Ends config act s (.ok a s') → Ends config act' t (.ok b t') → Q a b →
      Alike s' t' → Corresponds config Q' (f a) (f' b) s' t') :
    Corresponds config Q' (fun below => act below >>= fun a => f a below)
      (fun below => act' below >>= fun b => f' b below) s t :=
  ⟨hact.1.bind fun a b s' t' ha hb hQ hst => (hf a b s' t' ha hb hQ hst).1,
    hact.2.bind fun b a t' s' hb ha hQ hst => (hf a b s' t' ha hb hQ hst.symm).2⟩

theorem same {Q : α → α → Prop} (hact : Uniform config act) (hQ : ∀ a, Q a a) (hst : Alike s t) :
    Corresponds config Q act act s t := by
  constructor
  · intro result hresult
    obtain ⟨result', hsettles, hagree⟩ := hact.settles hresult hst
    exact ⟨result', hsettles, Matches.of_agree hQ hagree⟩
  · intro result hresult
    obtain ⟨result', hsettles, hagree⟩ := hact.settles hresult hst.symm
    exact ⟨result', hsettles, .of_agree (Q := flip Q) hQ hagree⟩

theorem bind_same {g : α → Interpreter → Eval γ} {g' : α → Interpreter → Eval δ}
    (hact : Uniform config act) (hst : Alike s t)
    (hf : ∀ a s' t', Ends config act s (.ok a s') → Alike s' t' →
      Corresponds config Q' (g a) (g' a) s' t') :
    Corresponds config Q' (fun below => act below >>= fun a => g a below)
      (fun below => act below >>= fun a => g' a below) s t :=
  (same hact (Q := Eq) (fun _ => rfl) hst).bind fun a b s' t' ha _ hab hst => by
    subst hab
    exact hf a s' t' ha hst

theorem pure {a : α} {b : β} (hQ : Q a b) (hst : Alike s t) :
    Corresponds config Q (fun _ => Pure.pure a) (fun _ => Pure.pure b) s t := by
  constructor
  · rintro _ ⟨levels, rfl, -⟩
    exact ⟨.ok b t, ⟨⟨0, fun _ _ => rfl⟩, id⟩, .ok hQ hst⟩
  · rintro _ ⟨levels, rfl, -⟩
    exact ⟨.ok a s, ⟨⟨0, fun _ _ => rfl⟩, id⟩, .ok (Q := flip Q) hQ hst.symm⟩

theorem fail (e : Error) (hst : Alike s t) :
    Corresponds config Q (fun _ => Eval.fail e) (fun _ => Eval.fail e) s t := by
  constructor
  · rintro _ ⟨levels, rfl, -⟩
    exact ⟨.error (.error e) t, ⟨⟨0, fun _ _ => rfl⟩, id⟩, .error _ hst⟩
  · rintro _ ⟨levels, rfl, -⟩
    exact ⟨.error (.error e) s, ⟨⟨0, fun _ _ => rfl⟩, id⟩, .error _ hst.symm⟩

theorem congr {act₁ : Interpreter → Eval α} {act₁' : Interpreter → Eval β} {s₁ t₁ : State}
    (h : ∀ below, act below s = act₁ below s₁) (h' : ∀ below, act' below t = act₁' below t₁)
    (hact : Corresponds config Q act₁ act₁' s₁ t₁) : Corresponds config Q act act' s t := by
  unfold Corresponds Follows Ends Settles at hact ⊢
  simp only [h, h']
  exact hact

/-- A first part of the first activity that leaves all but the journal as it is may be left out. -/
theorem of_left {g : α → Interpreter → Eval γ} {Q' : γ → β → Prop} {a : α}
    (hact : Uniform config act) (hends : Ends config act s (.ok a u))
    (hg : Corresponds config Q' (g a) act' u t) :
    Corresponds config Q' (fun below => act below >>= fun a => g a below) act' s t := by
  constructor
  · intro result hresult
    -- The first part has one end only, which is known.
    obtain ⟨b, s', hb, hresult⟩ | ⟨stop, s', herror, -⟩ := hresult.of_bind
    · cases hact.unique hends hb
      exact hg.1 result hresult
    · cases hact.unique hends herror
  · intro result hresult
    obtain ⟨result', hsettles, hmatches⟩ := hg.2 result hresult
    exact ⟨result', (hact.settles_self hends).bind hsettles, hmatches⟩

theorem level_left (r : Request) {Q : r.Result → β → Prop}
    (h : Corresponds config Q (fun below => level config below r) act' s t) :
    Corresponds config Q (fun below => below r) act' s t := by
  refine ⟨fun result hresult => h.1 result (ends_level hresult), fun result hresult => ?_⟩
  obtain ⟨result', hsettles, hmatches⟩ := h.2 result hresult
  exact ⟨result', settles_request hsettles, hmatches⟩

theorem level_right (r : Request) {Q : α → r.Result → Prop}
    (h : Corresponds config Q act (fun below => level config below r) s t) :
    Corresponds config Q act (fun below => below r) s t := by
  refine ⟨fun result hresult => ?_, fun result hresult => h.2 result (ends_level hresult)⟩
  obtain ⟨result', hsettles, hmatches⟩ := h.1 result hresult
  exact ⟨result', settles_request hsettles, hmatches⟩

theorem level (r r' : Request) {Q : r.Result → r'.Result → Prop}
    (h : Corresponds config Q (fun below => Interpreter.level config below r)
      (fun below => Interpreter.level config below r') s t) :
    Corresponds config Q (fun below => below r) (fun below => below r') s t :=
  level_left r (level_right r' h)

end Corresponds

end Lisp.Interpreter
