import Lisp.Proofs.Eval.Congruence
import Lisp.Proofs.Eval.Simulation

/-!
# Footprints

All that an evaluation takes from the global table are the values of some names: those that it
looked up there before it bound them itself, `reads`.  Two tables that agree on these names are
alike to it, `answers_of_agree_on_reads`.  So two evaluations that keep out of each other's way may
change places, `answers_commute`.

The journal tells which names were looked up and bound.  `History` says how a state follows from an
earlier one by the events in between, and `Follows` that of two runs the second does what the first
one does, for as long as that one neither reads a name on which they differ nor starts a task.
-/

namespace Lisp

variable {α β : Type}

/-! ## 1. Events -/

def Event.isSpawn : Event → Bool
  | .spawn .. => true
  | _ => false

def lookedUp (events : List Event) : List String :=
  events.filterMap fun
    | .lookup name => some name
    | _ => none

def stored (events : List Event) : List String :=
  events.filterMap fun
    | .store name _ => some name
    | _ => none

/-- The value that a name was bound to last.  The latest event comes first. -/
def lastStored (name : String) : List Event → Option Value
  | [] => none
  | .store key v :: earlier => if key = name then some v else lastStored name earlier
  | .lookup _ :: earlier => lastStored name earlier
  | .call .. :: earlier => lastStored name earlier
  | .spawn .. :: earlier => lastStored name earlier

/-- The names that were looked up before they were bound. -/
def reads : List Event → List String
  | [] => []
  | .lookup name :: earlier =>
    if (lastStored name earlier).isSome then reads earlier else name :: reads earlier
  | .store .. :: earlier => reads earlier
  | .call .. :: earlier => reads earlier
  | .spawn .. :: earlier => reads earlier

/-- Neither part of the events stores a name that the other one looks up or stores. -/
structure Apart (events events' : List Event) : Prop where
  stored_lookedUp : (stored events).Disjoint (lookedUp events')
  lookedUp_stored : (stored events').Disjoint (lookedUp events)
  stored_stored : (stored events).Disjoint (stored events')

section

variable {events later earlier : List Event} {name : String}

theorem lastStored_append (name : String) (later earlier : List Event) :
    lastStored name (later ++ earlier) = (lastStored name later).or (lastStored name earlier) := by
  induction later with
  | nil => rfl
  | cons event later ih =>
    cases event with
    | store key v =>
      simp only [List.cons_append, lastStored, ih]
      split
      · rfl
      · rfl
    | _ => exact ih

theorem lastStored_eq_none (h : name ∉ stored events) : lastStored name events = none := by
  induction events with
  | nil => rfl
  | cons event events ih =>
    cases event with
    | store key v =>
      obtain ⟨hkey, hevents⟩ := not_or.mp (List.mem_cons.not.mp h)
      rw [lastStored, if_neg (Ne.symm hkey)]
      exact ih hevents
    | _ => exact ih h

theorem reads_subset_lookedUp (events : List Event) : reads events ⊆ lookedUp events := by
  induction events with
  | nil => exact List.Subset.refl _
  | cons event events ih =>
    cases event with
    | lookup name =>
      rw [reads]
      split
      · exact List.subset_cons_of_subset name ih
      · exact List.cons_subset_cons name ih
    | _ => exact ih

theorem reads_subset_append (later earlier : List Event) :
    reads earlier ⊆ reads (later ++ earlier) := by
  induction later with
  | nil => exact List.Subset.refl _
  | cons event later ih =>
    cases event with
    | lookup name =>
      rw [List.cons_append, reads]
      split
      · exact ih
      · exact List.subset_cons_of_subset name ih
    | _ => exact ih

end

/-! ## 2. Histories -/

structure History (s : State) (events : List Event) (t : State) : Prop where
  journal_eq : t.world.journal = events ++ s.world.journal
  get?_eq : ∀ name,
    t.world.globals.get? name = (lastStored name events).or (s.world.globals.get? name)
  interrupt_eq : t.world.interrupt = s.world.interrupt

namespace History

variable {s t u : State} {events later : List Event}

theorem of_world_eq (h : t.world = s.world) : History s [] t := by
  refine ⟨?_, fun name => ?_, ?_⟩
  · rw [h]
    rfl
  · rw [h]
    rfl
  · rw [h]

theorem refl (s : State) : History s [] s := of_world_eq rfl

theorem trans (h : History s events t) (h' : History t later u) :
    History s (later ++ events) u := by
  refine ⟨?_, fun name => ?_, ?_⟩
  · rw [h'.journal_eq, h.journal_eq, List.append_assoc]
  · rw [h'.get?_eq, h.get?_eq, lastStored_append, Option.or_assoc]
  · rw [h'.interrupt_eq, h.interrupt_eq]

theorem eq_of_journal (h : History s events t) (h' : t.world.journal = later ++ s.world.journal) :
    events = later :=
  List.append_cancel_right (h.journal_eq.symm.trans h')

theorem store (s : State) (name : String) (v : Value) :
    History s [.store name v] { s with world := s.world.store name v } := by
  refine ⟨rfl, fun other => ?_, rfl⟩
  change (s.world.globals.set name v).get? other = _
  rw [Bindings.get?_set, lastStored]
  by_cases hother : other = name
  · rw [if_pos hother, if_pos hother.symm]
    rfl
  · rw [if_neg hother, if_neg (Ne.symm hother)]
    rfl

theorem get?_of_reads (h : History s events t)
    (hdisjoint : (stored events).Disjoint (lookedUp later)) {name : String}
    (hname : name ∈ reads later) :
    t.world.globals.get? name = s.world.globals.get? name := by
  have hlooked := reads_subset_lookedUp later hname
  rw [h.get?_eq, lastStored_eq_none fun hstored => hdisjoint hstored hlooked]
  rfl

theorem note (s : State) {event : Event} (h : ∀ name, lastStored name [event] = none) :
    History s [event] { s with world := s.world.note event } := by
  refine ⟨rfl, fun name => ?_, rfl⟩
  rw [h name]
  rfl

theorem remember (s : State) (memory : Nat) :
    History s [] { s with world := { s.world with memory } } :=
  ⟨rfl, fun _ => rfl, rfl⟩

theorem spawn (s : State) (body : Value) :
    History s [.spawn (s.world.spawn s.stack body).1 body]
      (Program.stateOf (Eval.spawn body s)) :=
  ⟨rfl, fun _ => rfl, rfl⟩

end History

/-! ## 3. Two runs -/

/-- Two runs that started at `s₀` and `t₀` are in step: they have the same frames, and what happened
since then is the same. -/
structure InStep (s₀ t₀ s t : State) : Prop where
  stack_eq : s.stack = t.stack
  interrupt_eq : s.world.interrupt = t.world.interrupt
  history : ∃ events, History s₀ events s ∧ History t₀ events t

/-- What happened since `s₀` includes the start of a task, or a read of a name that `t₀` has another
value for. -/
def Strays (s₀ t₀ s : State) : Prop :=
  ∃ events, History s₀ events s ∧
    (events.any Event.isSpawn = true ∨
      ∃ name ∈ reads events, s₀.world.globals.get? name ≠ t₀.world.globals.get? name)

/-- The first activity keeps its journal, and the second one, in step with it, does the same unless
the first one strays. -/
structure Follows (s₀ t₀ : State) (act act' : Eval α) : Prop where
  records : ∀ s, ∃ events, History s events (Program.stateOf (act s))
  follows : ∀ s t, InStep s₀ t₀ s t → Exhausted (act s) ∨ Strays s₀ t₀ (Program.stateOf (act s)) ∨
    Agree (InStep s₀ t₀) (act s) (act' t)

section

variable {s₀ t₀ s t s' t' : State} {events : List Event}

theorem InStep.step (h : InStep s₀ t₀ s t) (hs : History s events s') (ht : History t events t')
    (hstack : s'.stack = t'.stack) : InStep s₀ t₀ s' t' := by
  obtain ⟨before, hs₀, ht₀⟩ := h.history
  refine ⟨hstack, ?_, events ++ before, hs₀.trans hs, ht₀.trans ht⟩
  rw [hs.interrupt_eq, ht.interrupt_eq, h.interrupt_eq]

theorem InStep.history_of_journal (h : InStep s₀ t₀ s t)
    (hevents : s.world.journal = events ++ s₀.world.journal) : History t₀ events t := by
  obtain ⟨since, hs, ht⟩ := h.history
  rw [← hs.eq_of_journal hevents]
  exact ht

theorem Strays.trans (h : Strays s₀ t₀ s) (hs : History s events s') : Strays s₀ t₀ s' := by
  obtain ⟨before, hbefore, hcause⟩ := h
  refine ⟨events ++ before, hbefore.trans hs, ?_⟩
  obtain hspawn | ⟨name, hname, hdiffer⟩ := hcause
  · left
    rw [List.any_append, hspawn, Bool.or_true]
  · exact .inr ⟨name, reads_subset_append events before hname, hdiffer⟩

end

namespace Follows

variable {s₀ t₀ : State} {act act' : Eval α} {f f' : α → Eval β} {config : Config}

theorem of_agree (hrecords : ∀ s, ∃ events, History s events (Program.stateOf (act s)))
    (h : ∀ s t, InStep s₀ t₀ s t → Agree (InStep s₀ t₀) (act s) (act' t)) :
    Follows s₀ t₀ act act' :=
  ⟨hrecords, fun s t hst => .inr (.inr (h s t hst))⟩

theorem pure (a : α) : Follows s₀ t₀ (pure a) (pure a) :=
  .of_agree (fun s => ⟨[], .refl s⟩) fun _ _ h => .ok a h

theorem throw (stop : Stop) : Follows s₀ t₀ (throw stop : Eval α) (throw stop) :=
  .of_agree (fun s => ⟨[], .refl s⟩) fun _ _ h => .error stop h

theorem fail (e : Error) : Follows s₀ t₀ (Eval.fail e : Eval α) (Eval.fail e) := .throw (.error e)

theorem exhausted (act : Eval α) : Follows s₀ t₀ (MonadExcept.throw .exhausted) act :=
  ⟨fun s => ⟨[], .refl s⟩, fun _ _ _ => .inl trivial⟩

theorem bind (hact : Follows s₀ t₀ act act') (hf : ∀ a, Follows s₀ t₀ (f a) (f' a)) :
    Follows s₀ t₀ (act >>= f) (act' >>= f') where
  records s := by
    obtain ⟨events, hevents⟩ := hact.records s
    rw [bind_eq]
    cases hresult : act s with
    | ok a u =>
      rw [hresult] at hevents
      obtain ⟨later, hlater⟩ := (hf a).records u
      exact ⟨later ++ events, hevents.trans hlater⟩
    | error stop u =>
      rw [hresult] at hevents
      exact ⟨events, hevents⟩
  follows s t hst := by
    have hfollows := hact.follows s t hst
    rw [bind_eq, bind_eq]
    generalize act s = result at hfollows ⊢
    generalize act' t = result' at hfollows ⊢
    obtain hexhausted | hstrays | hagree := hfollows
    · obtain ⟨u, rfl⟩ := hexhausted.exists_eq
      exact .inl trivial
    · right; left
      -- Whatever follows, it adds to what has happened already.
      cases result with
      | ok a u =>
        obtain ⟨later, hlater⟩ := (hf a).records u
        exact hstrays.trans hlater
      | error stop u => exact hstrays
    · cases hagree with
      | ok a h => exact (hf a).follows _ _ h
      | error stop h => exact .inr (.inr (.error stop h))

theorem attempt (hact : Follows s₀ t₀ act act') :
    Follows s₀ t₀ (Eval.attempt act) (Eval.attempt act') where
  records s := by
    obtain ⟨events, hevents⟩ := hact.records s
    refine ⟨events, ?_⟩
    unfold Eval.attempt
    generalize act s = result at hevents ⊢
    match result with
    | .ok a u => exact hevents
    | .error (.error e) u => exact hevents
    | .error (.panic message) u => exact hevents
    | .error .exhausted u => exact hevents
  follows s t hst := by
    have hfollows := hact.follows s t hst
    unfold Eval.attempt
    generalize act s = result at hfollows ⊢
    generalize act' t = result' at hfollows ⊢
    obtain hexhausted | hstrays | hagree := hfollows
    · obtain ⟨u, rfl⟩ := hexhausted.exists_eq
      exact .inl trivial
    · right; left
      match result with
      | .ok a u => exact hstrays
      | .error (.error e) u => exact hstrays
      | .error (.panic message) u => exact hstrays
      | .error .exhausted u => exact hstrays
    · right; right
      cases hagree with
      | ok a h => exact .ok _ h
      | error stop h =>
        cases stop with
        | error e => exact .ok _ h
        | panic message => exact .error _ h
        | exhausted => exact .error _ h

theorem lookup (name : String) : Follows s₀ t₀ (Eval.lookup name) (Eval.lookup name) where
  records s := by
    unfold Eval.lookup
    cases Stack.find? name s.stack with
    | some v => exact ⟨[], .refl s⟩
    | none => exact ⟨_, .note s fun _ => rfl⟩
  follows s t hst := by
    right
    have hfind : Stack.find? name t.stack = Stack.find? name s.stack := by rw [hst.stack_eq]
    unfold Eval.lookup
    rw [hfind]
    cases Stack.find? name s.stack with
    | some v => exact .inr (.ok _ hst)
    | none =>
      by_cases hsame : s.world.globals.get? name = t.world.globals.get? name
      · right
        rw [← hsame]
        exact .ok _ (hst.step (.note s fun _ => rfl) (.note t fun _ => rfl) hst.stack_eq)
      · left
        obtain ⟨events, hs, ht⟩ := hst.history
        rw [hs.get?_eq, ht.get?_eq] at hsame
        have hunbound : lastStored name events = none := by
          by_contra hbound
          obtain ⟨v, hv⟩ := Option.ne_none_iff_exists'.mp hbound
          rw [hv] at hsame
          exact hsame rfl
        have hread : name ∈ reads (.lookup name :: events) := by
          rw [reads, hunbound]
          exact List.mem_cons_self
        rw [hunbound] at hsame
        exact ⟨_, hs.trans (.note s fun _ => rfl), .inr ⟨name, hread, hsame⟩⟩

theorem checkInterrupt : Follows s₀ t₀ Eval.checkInterrupt Eval.checkInterrupt := by
  refine of_agree (fun s => ⟨[], ?_⟩) fun s t hst => ?_
  · unfold Eval.checkInterrupt
    split <;> exact .refl s
  · unfold Eval.checkInterrupt World.isInterrupted
    rw [hst.interrupt_eq]
    split
    · exact .error _ hst
    · exact .ok _ hst

theorem store (name : String) (v : Value) :
    Follows s₀ t₀ (Eval.bind name v) (Eval.bind name v) :=
  .of_agree (fun s => ⟨_, .store s name v⟩) fun s t hst =>
    .ok () (hst.step (.store s name v) (.store t name v) hst.stack_eq)

theorem spawn (body : Value) (act : Eval Nat) : Follows s₀ t₀ (Eval.spawn body) act where
  records s := ⟨_, .spawn s body⟩
  follows s t hst := by
    obtain ⟨events, hs, -⟩ := hst.history
    exact .inr (.inl ⟨_, hs.trans (.spawn s body), .inl rfl⟩)

theorem push (maxDepth : Nat) (frame : Frame) :
    Follows s₀ t₀ (Eval.push maxDepth frame) (Eval.push maxDepth frame) := by
  refine of_agree (fun s => ⟨[], ?_⟩) fun s t hst => ?_
  · unfold Eval.push
    split <;> exact .of_world_eq rfl
  · unfold Eval.push
    rw [hst.stack_eq]
    split
    · exact .ok _ (hst.step (.of_world_eq rfl) (.of_world_eq rfl) rfl)
    · exact .error _ hst

theorem pop : Follows s₀ t₀ Eval.pop Eval.pop := by
  refine of_agree (fun s => ⟨[], ?_⟩) fun s t hst => ?_
  · unfold Eval.pop
    split <;> exact .of_world_eq rfl
  · unfold Eval.pop
    rw [hst.stack_eq]
    split
    · exact .ok _ (hst.step (.of_world_eq rfl) (.of_world_eq rfl) rfl)
    · exact .error _ hst

theorem leave (result : Except Error α) :
    Follows s₀ t₀ (Eval.leave result) (Eval.leave result) := by
  refine pop.bind fun _ => ?_
  cases result with
  | ok a => exact pure a
  | error e => exact fail e

theorem withFrame (maxDepth : Nat) (frame : Frame) (hact : Follows s₀ t₀ act act') :
    Follows s₀ t₀ (Eval.withFrame maxDepth frame act) (Eval.withFrame maxDepth frame act') :=
  (push maxDepth frame).bind fun _ => hact.attempt.bind fun result => leave result

end Follows

/-! ## 4. The interpreter -/

/-- Native functions answer as their arguments are, whatever the host remembers. -/
def Host.AnswersByArguments (host : Host) : Prop :=
  ∀ f args memory memory', (host.call f args memory).1 = (host.call f args memory').1

theorem Builtins.library_answersByArguments : Builtins.library.host.AnswersByArguments := by
  intro f args memory memory'
  unfold Host.call
  split
  · rfl
  · rename_i accepted _
    change (Library.answer Builtins.library[f.id]? f.name accepted memory).1 =
      (Library.answer Builtins.library[f.id]? f.name accepted memory').1
    cases hentry : Builtins.library[f.id]? with
    | none => rfl
    | some entry =>
      have hmem := List.mem_of_getElem? hentry
      obtain ⟨name, entry⟩ := entry
      cases entry with
      | counter => simp [Builtins.library, Builtins.ofValues] at hmem
      | _ => rfl

namespace Follows

variable {s₀ t₀ : State} {config : Config} {below below' : Interpreter}

theorem callNative {host : Host} (hhost : host.AnswersByArguments) (f : NativeRef)
    (args : List Value) :
    Follows s₀ t₀ (Eval.callNative host f args) (Eval.callNative host f args) := by
  refine of_agree (fun s => ⟨[], ?_⟩) fun s t hst => ?_
  · rw [Eval.callNative_apply]
    cases (host.call f args s.world.memory).1 <;> exact .remember s _
  · have hafter := hst.step (.remember s (host.call f args s.world.memory).2)
      (.remember t (host.call f args t.world.memory).2) hst.stack_eq
    rw [Eval.callNative_apply, Eval.callNative_apply, hhost f args _ t.world.memory]
    cases (host.call f args t.world.memory).1 with
    | value v => exact .ok v hafter
    | error e => exact .error _ hafter
    | panic message => exact .error _ hafter

theorem evalArgument (hbelow : ∀ r, Follows s₀ t₀ (below r) (below' r)) (maxDepth : Nat)
    (args : List Value) :
    Follows s₀ t₀ ((Builtins.evalArgument args).perform maxDepth below)
      ((Builtins.evalArgument args).perform maxDepth below') := by
  match args with
  | [] => exact fail _
  | [form] =>
    refine (hbelow (.eval form)).attempt.bind fun answer => ?_
    cases answer with
    | ok v => exact pure v
    | error e => exact fail e
  | _ :: _ :: _ => exact fail _

theorem procedure (hconfig : config.Standard)
    (hbelow : ∀ r, Follows s₀ t₀ (below r) (below' r)) {p : Procedure α} (hp : config.Provides p) :
    Follows s₀ t₀ (p.perform config.maxDepth below) (p.perform config.maxDepth below') :=
  hconfig.provides (P := fun p =>
      Follows s₀ t₀ (p.perform config.maxDepth below) (p.perform config.maxDepth below'))
    (evalArgument hbelow config.maxDepth) fail hp

theorem call (hconfig : config.Standard) (hhost : config.host.AnswersByArguments)
    (hbelow : ∀ r, Follows s₀ t₀ (below r) (below' r)) (callee : Callee) (args : List Value) :
    Follows s₀ t₀ (Interpreter.call config below callee args)
      (Interpreter.call config below' callee args) := by
  have hnote : Follows s₀ t₀
      (modify fun s => { s with world := s.world.note (.call callee args s.stack) })
      (modify fun s => { s with world := s.world.note (.call callee args s.stack) }) := by
    refine of_agree (fun s => ⟨_, .note s fun _ => rfl⟩) fun s t hst => .ok _ ?_
    have hcall : History t [.call callee args s.stack]
        { t with world := t.world.note (.call callee args t.stack) } := by
      rw [hst.stack_eq]
      exact .note t fun _ => rfl
    exact hst.step (.note s fun _ => rfl) hcall hst.stack_eq
  refine hnote.bind fun _ => ?_
  cases callee with
  | native f => exact callNative hhost f args
  | invokable f => exact procedure hconfig hbelow (.invokable f args)

theorem congruence (hconfig : config.Standard) (hhost : config.host.AnswersByArguments)
    (hbelow : ∀ r, Follows s₀ t₀ (below r) (below' r)) :
    Congruence config config below below' fun _ => Follows s₀ t₀ where
  analyzer_eq := rfl
  expander_eq := rfl
  request := hbelow
  pure := pure
  fail := fail
  bind := bind
  checkInterrupt := checkInterrupt
  lookup := lookup
  store := store
  spawn body := spawn body _
  withFrame frame hact := hact.withFrame config.maxDepth frame
  invocation _ callee args := (call hconfig hhost hbelow callee args).withFrame config.maxDepth _
  procedure _ hp := procedure hconfig hbelow hp

end Follows

namespace Interpreter

variable {config : Config} {s t : State} {events : List Event}

theorem interpret_follows (hconfig : config.Standard) (hhost : config.host.AnswersByArguments)
    (s₀ t₀ : State) (levels : Nat) (r : Request) :
    Follows s₀ t₀ (interpret config levels r) (interpret config levels r) :=
  interpret_congr (fun _ => Follows s₀ t₀) .exhausted
    (fun _ _ hbelow => Follows.congruence hconfig hhost hbelow) (Nat.le_refl levels) r

/-! ## 5. The footprint decides -/

/-- A request is answered in the same way where all the names that it reads have the values that
they had, and then the same happens. -/
theorem answers_of_agree_on_reads (hconfig : config.Standard)
    (hhost : config.host.AnswersByArguments) {r : Request}
    {result : EStateM.Result Stop State r.Result} (hanswer : Answers config r s result)
    (hevents : (Program.stateOf result).world.journal = events ++ s.world.journal)
    (hspawn : events.any Event.isSpawn = false) (hstack : s.stack = t.stack)
    (hinterrupt : s.world.interrupt = t.world.interrupt)
    (hreads : ∀ name ∈ reads events, s.world.globals.get? name = t.world.globals.get? name) :
    ∃ result', Answers config r t result' ∧ Agree (InStep s t) result result' := by
  obtain ⟨levels, rfl, hresult⟩ := hanswer
  have hstart : InStep s t s t := ⟨hstack, hinterrupt, [], .refl s, .refl t⟩
  have hfollows := (interpret_follows hconfig hhost s t levels r).follows s t hstart
  obtain hexhausted | ⟨since, hsince, hstrays⟩ | hagree := hfollows
  · exact absurd hexhausted hresult
  · rw [hsince.eq_of_journal hevents] at hstrays
    obtain hcause | ⟨name, hname, hdiffer⟩ := hstrays
    · rw [hspawn] at hcause
      cases hcause
    · exact absurd (hreads name hname) hdiffer
  · exact ⟨_, ⟨levels, rfl, hagree.not_exhausted hresult⟩, hagree⟩

theorem Answers.history (hconfig : config.Standard) (hhost : config.host.AnswersByArguments)
    {r : Request} {result : EStateM.Result Stop State r.Result}
    (hanswer : Answers config r s result)
    (hevents : (Program.stateOf result).world.journal = events ++ s.world.journal) :
    History s events (Program.stateOf result) := by
  obtain ⟨levels, rfl, -⟩ := hanswer
  obtain ⟨since, hsince⟩ := (interpret_follows hconfig hhost s s levels r).records s
  rw [← hsince.eq_of_journal hevents]
  exact hsince

theorem answers_commute (hconfig : config.Standard) (hhost : config.host.AnswersByArguments)
    {stack stack' : Stack} {w : World} {a b : Value}
    {result result' : EStateM.Result Stop State Value} {events events' : List Event}
    (hfirst : Answers config (.eval a) ⟨stack, w⟩ result)
    (hevents : (Program.stateOf result).world.journal = events ++ w.journal)
    (hspawn : events.any Event.isSpawn = false)
    (hsecond : Answers config (.eval b) ⟨stack', (Program.stateOf result).world⟩ result')
    (hevents' : (Program.stateOf result').world.journal =
      events' ++ (Program.stateOf result).world.journal)
    (hspawn' : events'.any Event.isSpawn = false) (hapart : Apart events events') :
    ∃ sooner later : EStateM.Result Stop State Value,
      Answers config (.eval b) ⟨stack', w⟩ sooner ∧
      Answers config (.eval a) ⟨stack, (Program.stateOf sooner).world⟩ later ∧
      Program.outcomeOf later = Program.outcomeOf result ∧
      Program.outcomeOf sooner = Program.outcomeOf result' ∧
      ∀ name, (Program.stateOf later).world.globals.get? name =
        (Program.stateOf result').world.globals.get? name := by
  have hhistory := hfirst.history hconfig hhost hevents
  have hhistory' := hsecond.history hconfig hhost hevents'
  -- The second body reads nothing that the first one has bound, so it may as well come first.
  obtain ⟨sooner, hsooner, hagree'⟩ := answers_of_agree_on_reads hconfig hhost
    (t := ⟨stack', w⟩) hsecond hevents' hspawn' rfl hhistory.interrupt_eq
    fun name hname => hhistory.get?_of_reads hapart.stored_lookedUp hname
  have hsooner_history := hagree'.states.history_of_journal hevents'
  obtain ⟨later, hlater, hagree⟩ := answers_of_agree_on_reads hconfig hhost
    (t := ⟨stack, (Program.stateOf sooner).world⟩) hfirst hevents hspawn rfl
    hsooner_history.interrupt_eq.symm
    fun name hname => (hsooner_history.get?_of_reads hapart.lookedUp_stored hname).symm
  have hlater_history := hagree.states.history_of_journal hevents
  refine ⟨sooner, later, hsooner, hlater, hagree.outcomeOf_eq.symm, hagree'.outcomeOf_eq.symm,
    fun name => ?_⟩
  rw [hlater_history.get?_eq, hsooner_history.get?_eq, hhistory'.get?_eq, hhistory.get?_eq]
  -- At most one of the two bodies has bound the name.
  by_cases hname : name ∈ stored events
  · rw [lastStored_eq_none fun h => hapart.stored_stored hname h, Option.none_or, Option.none_or]
  · rw [lastStored_eq_none hname, Option.none_or, Option.none_or]

/-- The footprint of an evaluation, where native functions answer as their arguments are and the
only other callable is the builtin that evaluates its argument.

* A request is answered alike in two environments that have the same frames and agree on every name
  that it looks up in the global table before it has bound it, if it starts no task.  The answers
  are the same value or error, and the same is bound, looked up and called in the same order.
* Of two bodies that start no task, and of which neither binds a name that the other looks up or
  binds, each has the same outcome in either order, and so has every global name the same value. -/
theorem evaluation_footprint (hconfig : config.Standard) (hhost : config.host.AnswersByArguments) :
    (∀ (r : Request) (s t : State) (result : EStateM.Result Stop State r.Result)
      (events : List Event), Answers config r s result →
      (Program.stateOf result).world.journal = events ++ s.world.journal →
      events.any Event.isSpawn = false → s.stack = t.stack →
      s.world.interrupt = t.world.interrupt →
      (∀ name ∈ reads events, s.world.globals.get? name = t.world.globals.get? name) →
      ∃ result', Answers config r t result' ∧ Agree (InStep s t) result result') ∧
    (∀ (stack stack' : Stack) (w : World) (a b : Value)
      (result result' : EStateM.Result Stop State Value) (events events' : List Event),
      Answers config (.eval a) ⟨stack, w⟩ result →
      (Program.stateOf result).world.journal = events ++ w.journal →
      events.any Event.isSpawn = false →
      Answers config (.eval b) ⟨stack', (Program.stateOf result).world⟩ result' →
      (Program.stateOf result').world.journal =
        events' ++ (Program.stateOf result).world.journal →
      events'.any Event.isSpawn = false → Apart events events' →
      ∃ sooner later : EStateM.Result Stop State Value,
        Answers config (.eval b) ⟨stack', w⟩ sooner ∧
        Answers config (.eval a) ⟨stack, (Program.stateOf sooner).world⟩ later ∧
        Program.outcomeOf later = Program.outcomeOf result ∧
        Program.outcomeOf sooner = Program.outcomeOf result' ∧
        ∀ name, (Program.stateOf later).world.globals.get? name =
          (Program.stateOf result').world.globals.get? name) := by
  constructor
  · intro r s t result events hanswer hevents hspawn hstack hinterrupt hreads
    exact answers_of_agree_on_reads hconfig hhost hanswer hevents hspawn hstack hinterrupt hreads
  · intro stack stack' w a b result result' events events' hfirst hevents hspawn hsecond hevents'
      hspawn' hapart
    exact answers_commute hconfig hhost hfirst hevents hspawn hsecond hevents' hspawn' hapart

/-- The first part for a form that looks up a name which it has bound itself, the second one for
bodies that call the same function. -/
theorem evaluation_footprint_rebound :
    let config := Program.standardConfig
    let form : Value := .list [.symbol "do",
      .list [.symbol "def", .symbol "z", .list [.symbol "list", .symbol "x"]],
      .list [.symbol "eval", .list [.symbol "quote", .symbol "z"]]]
    let s : State := ⟨.base, Program.standardWorld.storeAll [("x", .int 1)]⟩
    let t : State := ⟨.base, Program.standardWorld.storeAll [("z", .int 9), ("x", .int 1)]⟩
    let a : Value := .list [.symbol "def", .symbol "x", .list [.symbol "list", .int 1]]
    let b : Value := .list [.symbol "def", .symbol "y", .list [.symbol "list", .int 2]]
    config.Standard ∧ config.host.AnswersByArguments ∧
    (∃ result result', Answers config (.eval form) s result ∧
      Program.outcomeOf result = some (.ok (.list [.int 1])) ∧
      Answers config (.eval form) t result' ∧ Agree (InStep s t) result result') ∧
    (∃ result result' sooner later : EStateM.Result Stop State Value,
      Answers config (.eval a) ⟨.base, Program.standardWorld⟩ result ∧
      Answers config (.eval b) ⟨.base, (Program.stateOf result).world⟩ result' ∧
      Answers config (.eval b) ⟨.base, Program.standardWorld⟩ sooner ∧
      Answers config (.eval a) ⟨.base, (Program.stateOf sooner).world⟩ later ∧
      ∀ name, (Program.stateOf later).world.globals.get? name =
        (Program.stateOf result').world.globals.get? name) := by
  intro config form s t a b
  have hconfig : config.Standard := Builtins.library_standard rfl rfl rfl
  have hhost : config.host.AnswersByArguments := Builtins.library_answersByArguments
  obtain ⟨hfootprint, hcommute⟩ := evaluation_footprint hconfig hhost
  refine ⟨hconfig, hhost, ?_, ?_⟩
  · let result := interpret config 8 (.eval form) s
    let events := (Program.stateOf result).world.journal.take 12
    have houtcome : Program.outcomeOf result = some (.ok (.list [.int 1])) := rfl
    have hreads : reads events = ["quote", "eval", "eval", "x", "list", "list", "def", "do"] := rfl
    have hagree : ∀ name ∈ reads events,
        s.world.globals.get? name = t.world.globals.get? name := by
      rw [hreads]
      simp only [List.forall_mem_cons, List.not_mem_nil, false_implies, implies_true]
      exact ⟨rfl, rfl, rfl, rfl, rfl, rfl, rfl, rfl, trivial⟩
    have hanswer := answers_of_outcomeOf houtcome
    obtain ⟨result', hanswer', hresult⟩ := hfootprint (.eval form) s t result events hanswer
      rfl rfl rfl rfl hagree
    exact ⟨result, result', hanswer, houtcome, hanswer', hresult⟩
  · let result := interpret config 8 (.eval a) ⟨.base, Program.standardWorld⟩
    let result' := interpret config 8 (.eval b) ⟨.base, (Program.stateOf result).world⟩
    let events := (Program.stateOf result).world.journal.take 5
    let events' := (Program.stateOf result').world.journal.take 5
    have hstored : stored events = ["x"] := rfl
    have hstored' : stored events' = ["y"] := rfl
    have hlookedUp : lookedUp events = ["list", "list", "def"] := rfl
    have hlookedUp' : lookedUp events' = ["list", "list", "def"] := rfl
    have hapart : Apart events events' :=
      ⟨by simp [hstored, hlookedUp'], by simp [hstored', hlookedUp], by simp [hstored, hstored']⟩
    have hfirst : Answers config (.eval a) ⟨.base, Program.standardWorld⟩ result :=
      answers_of_outcomeOf (rfl : Program.outcomeOf result = some (.ok (.symbol "x")))
    have hsecond : Answers config (.eval b) ⟨.base, (Program.stateOf result).world⟩ result' :=
      answers_of_outcomeOf (rfl : Program.outcomeOf result' = some (.ok (.symbol "y")))
    obtain ⟨sooner, later, hsooner, hlater, -, -, hglobals⟩ := hcommute .base .base
      Program.standardWorld a b result result' events events' hfirst rfl rfl hsecond rfl rfl hapart
    exact ⟨result, result', sooner, later, hfirst, hsecond, hsooner, hlater, hglobals⟩

end Interpreter

end Lisp
