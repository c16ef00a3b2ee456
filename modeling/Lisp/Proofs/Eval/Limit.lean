import Lisp.Proofs.Eval.Congruence
import Lisp.Proofs.Eval.Frames

/-!
# The depth limit

To the code of the host an overflow is an error like others.  Code that goes on after an overflow, or that
removes frames of its callers, can let it show as something else: under a limit of two
`(try '(list 1))` is nil where `try` forgives errors, and under a limit of three it is a list,
`greater_limit_changes_answer`.

Otherwise the limit decides how far a run gets and nothing else: a request that is answered under some
limit, and not by an overflow, has the same answer under every greater one, `greater_limit_keeps_answer`.
`Procedure.Discreet` is what that takes.  Once it has been told of an overflow, code of the host returns
nothing but an overflow, and it never removes a frame of its callers.  Errors of other kinds may be
handled, names be bound in the frame of the call, and any frames be removed from forks.
-/

namespace Lisp

variable {α β : Type}

/-! ## 1. Results that do not show the limit -/

def Error.isOverflow : Error → Bool
  | .stackOverflow _ => true
  | _ => false

def isOverflow : Except Error α → Bool
  | .ok _ => false
  | .error e => e.isOverflow

/-- A result that a caller gets, other than an overflow.  A panic and a lack of levels are none. -/
inductive Returned : EStateM.Result Stop State α → Prop where
  | value (a : α) (s : State) : Returned (.ok a s)
  | error {e : Error} (he : e.isOverflow = false) (s : State) : Returned (.error (.error e) s)

theorem Returned.not_exhausted {result : EStateM.Result Stop State α} (h : Returned result) :
    ¬ Exhausted result := by
  cases h with
  | value a s => exact id
  | error he s => exact id

theorem Returned.not_overflow {maxDepth : Nat} {s : State} :
    ¬ Returned (.error (.error (.stackOverflow maxDepth)) s : EStateM.Result Stop State α) := by
  rintro ⟨⟩
  contradiction

theorem Returned.of_outcomeOf {result : EStateM.Result Stop State Value} {e : Error}
    (h : Program.outcomeOf result = some (.error e)) (he : e.isOverflow = false)
    (hpanic : ∀ message, e ≠ .taskPanic message) : Returned result := by
  cases result with
  | ok v s => exact .value v s
  | error stop s =>
    cases stop with
    | error e' =>
      cases h
      exact .error he s
    | panic message =>
      cases h
      exact absurd rfl (hpanic _)
    | exhausted => cases h

/-! ## 2. Activities under two limits -/

theorem Eval.lookup_eq_ok (name : String) (s : State) :
    ∃ found t, Eval.lookup name s = .ok found t ∧ t.stack = s.stack := by
  unfold Eval.lookup
  split
  · exact ⟨_, s, rfl, rfl⟩
  · exact ⟨_, _, rfl, rfl⟩

theorem Eval.bindLocal_eq_ok (name : String) (v : Value) (s : State) :
    ∃ t, Eval.bindLocal name v s = .ok () t ∧ t.stack.length = s.stack.length := by
  unfold Eval.bindLocal Stack.bind?
  split
  · rename_i stack hbind
    refine ⟨_, rfl, ?_⟩
    split at hbind
    · rename_i hstack
      cases hbind
      rw [hstack]
      rfl
    · cases hbind
  · exact ⟨_, rfl, rfl⟩

/-- What the first activity returns from the state `s` the second one returns too, and the lowest
frames stay.  If an overflow was seen before, nothing is returned. -/
structure WidensFrom (seen : Bool) (kept : Nat) (act act' : Eval α) (s : State) : Prop where
  kept_le : kept ≤ (Program.stateOf (act s)).stack.length
  eq_of_returned : Returned (act s) → seen = false ∧ act' s = act s

/-- The second activity returns what the first one returns, which has the smaller limit.  No frame
of the callers is removed. -/
def Widens (act act' : Eval α) : Prop :=
  ∀ s, 0 < s.stack.length → WidensFrom false s.stack.length act act' s

namespace WidensFrom

variable {seen : Bool} {kept : Nat} {act act' : Eval α} {f f' : α → Eval β} {s t : State} {a : α}

theorem of_not_returned (h : ¬ Returned (act s))
    (hkept : kept ≤ (Program.stateOf (act s)).stack.length) : WidensFrom seen kept act act' s :=
  ⟨hkept, fun hreturned => absurd hreturned h⟩

theorem leave {result : Except Error α} (hlength : kept < t.stack.length) (hkept : 0 < kept) :
    WidensFrom (isOverflow result) kept (Eval.leave result) (Eval.leave result) t := by
  obtain ⟨frame, callers, hcons⟩ := List.exists_cons_of_length_pos (hkept.trans hlength)
  rw [hcons, List.length_cons] at hlength
  have hpop := pop_of_cons (List.ne_nil_of_length_pos (by omega : 0 < callers.length)) hcons
  cases result with
  | ok a =>
    have hleave : Eval.leave (.ok a) t = .ok a { t with stack := callers } :=
      Lisp.bind_of_ok hpop
    refine ⟨?_, fun _ => ⟨rfl, rfl⟩⟩
    rw [hleave]
    exact Nat.le_of_lt_succ hlength
  | error e =>
    have hleave : Eval.leave (.error e : Except Error α) t =
        .error (.error e) { t with stack := callers } := Lisp.bind_of_ok hpop
    refine ⟨?_, fun hreturned => ⟨?_, rfl⟩⟩
    · rw [hleave]
      exact Nat.le_of_lt_succ hlength
    · rw [hleave] at hreturned
      cases hreturned with
      | error he _ => exact he

end WidensFrom

/-- What the first activity tells from the state `s` the second one tells too, unless it is an
overflow.  The frames stay, but for as many as may be removed, and those that the outcome adds come on
top. -/
inductive Tells (overflows : α → Bool) (adds : α → Nat) (removes : Nat) (act act' : Eval α)
    (s : State) : Prop
  | stop {stop : Stop} {t : State} (result : act s = .error stop t) (uncaught : ∀ e, stop ≠ .error e)
      (frames : s.stack.length ≤ t.stack.length)
  | outcome {a : α} {t : State} (result : act s = .ok a t)
      (frames : s.stack.length + adds a ≤ t.stack.length + removes)
      (same : overflows a = true ∨ act' s = .ok a t)

namespace Tells

variable {overflows : α → Bool} {adds : α → Nat} {removes kept n : Nat} {act act' : Eval α}
  {f f' : α → Eval β} {s : State}

theorem of_ok {a : α} {t : State} (result : act s = .ok a t)
    (frames : s.stack.length + adds a ≤ t.stack.length + removes) :
    Tells overflows adds removes act act s :=
  .outcome result frames (.inr result)

theorem bind {seen : Bool} (h : Tells overflows adds removes act act' s)
    (hkept : kept ≤ s.stack.length)
    (hf : ∀ a t, s.stack.length + adds a ≤ t.stack.length + removes →
      WidensFrom (seen || overflows a) kept (f a) (f' a) t) :
    WidensFrom seen kept (act >>= f) (act' >>= f') s := by
  cases h with
  | stop result uncaught frames =>
    apply WidensFrom.of_not_returned
    · rw [bind_of_error result]
      intro hreturned
      cases hreturned with
      | error => exact uncaught _ rfl
    · rw [bind_of_error result]
      exact hkept.trans frames
  | @outcome a t result frames same =>
    obtain ⟨hframes, heq⟩ := hf a t frames
    refine ⟨?_, fun hreturned => ?_⟩
    · rw [bind_of_ok result]
      exact hframes
    · rw [bind_of_ok result] at hreturned ⊢
      obtain ⟨hseen, heq⟩ := heq hreturned
      -- Something is returned afterwards, so there was no overflow and both runs go on alike.
      obtain ⟨hbefore, hnow⟩ := Bool.or_eq_false_iff.mp hseen
      have result' := same.resolve_left (by rw [hnow]; exact Bool.false_ne_true)
      exact ⟨hbefore, (bind_of_ok result').trans heq⟩

theorem inFork (h : ∀ u, s.visit? n = some u → Tells overflows adds removes act act' u) :
    Tells overflows (fun _ => 0) 0 (Eval.inFork n act) (Eval.inFork n act') s := by
  cases hvisit : s.visit? n with
  | none => exact .stop (Eval.inFork_of_none hvisit) nofun (Nat.le_refl _)
  | some u =>
    cases h u hvisit with
    | @stop stop t result uncaught =>
      refine .stop (t := t.back n s.stack) ?_ uncaught (Nat.le_refl _)
      rw [Eval.inFork_of_some hvisit, result]
    | @outcome a t result _ same =>
      refine .outcome (t := t.back n s.stack) ?_ (Nat.le_refl _) (same.imp_right fun result' => ?_)
      · rw [Eval.inFork_of_some hvisit, result]
      · rw [Eval.inFork_of_some hvisit, result']

end Tells

theorem WidensFrom.attempt {act act' : Eval α} {s : State}
    (h : WidensFrom false s.stack.length act act' s) :
    Tells isOverflow (fun _ => 0) 0 (Eval.attempt act) (Eval.attempt act') s := by
  obtain ⟨hkept, heq⟩ := h
  cases hresult : act s with
  | ok a t =>
    rw [hresult] at hkept heq
    have hsame := (heq (.value a t)).2
    exact .outcome (Eval.attempt_of_ok hresult) hkept (.inr (Eval.attempt_of_ok hsame))
  | error stop t =>
    rw [hresult] at hkept heq
    cases stop with
    | error e =>
      refine .outcome (Eval.attempt_of_error hresult) hkept ?_
      cases he : e.isOverflow with
      | true => exact .inl he
      | false => exact .inr (Eval.attempt_of_error (heq (.error he t)).2)
    | panic message => exact .stop (Eval.attempt_of_stop hresult nofun) nofun hkept
    | exhausted => exact .stop (Eval.attempt_of_stop hresult nofun) nofun hkept

namespace Widens

variable {act act' : Eval α} {f f' : α → Eval β} {maxDepth limit : Nat}

theorem of_length_le (h : ∀ s, s.stack.length ≤ (Program.stateOf (act s)).stack.length) :
    Widens act act :=
  fun s _ => ⟨h s, fun _ => ⟨rfl, rfl⟩⟩

theorem pure (a : α) : Widens (pure a) (pure a) := .of_length_le fun _ => Nat.le_refl _

theorem fail (e : Error) : Widens (Eval.fail e : Eval α) (Eval.fail e) :=
  .of_length_le fun _ => Nat.le_refl _

theorem exhausted (act : Eval α) : Widens (throw .exhausted) act :=
  fun _ _ => .of_not_returned nofun (Nat.le_refl _)

theorem bind (hact : Widens act act') (hf : ∀ a, Widens (f a) (f' a)) :
    Widens (act >>= f) (act' >>= f') := by
  intro s hs
  obtain ⟨hkept, heq⟩ := hact s hs
  cases hresult : act s with
  | ok a t =>
    rw [hresult] at hkept heq
    have hlength : s.stack.length ≤ t.stack.length := hkept
    obtain ⟨hmore, hsame⟩ := hf a t (hs.trans_le hlength)
    refine ⟨?_, fun hreturned => ?_⟩
    · rw [bind_of_ok hresult]
      exact hlength.trans hmore
    · rw [bind_of_ok hresult] at hreturned
      rw [bind_of_ok hresult, bind_of_ok (heq (.value a t)).2]
      exact hsame hreturned
  | error stop t =>
    rw [hresult] at hkept heq
    refine ⟨?_, fun hreturned => ?_⟩
    · rw [bind_of_error hresult]
      exact hkept
    · rw [bind_of_error hresult] at hreturned
      rw [bind_of_error hresult]
      -- Whether an error is returned does not depend on the type of the value that is missing.
      have hact : Returned (.error stop t : EStateM.Result Stop State α) := by
        cases hreturned with
        | error he _ => exact .error he t
      have hact' : act' s = .error stop t := (heq hact).2
      exact ⟨rfl, bind_of_error hact'⟩

theorem lookup (name : String) : Widens (Eval.lookup name) (Eval.lookup name) := by
  apply of_length_le
  intro s
  obtain ⟨found, t, hlookup, hstack⟩ := Eval.lookup_eq_ok name s
  rw [hlookup, ← hstack]
  exact Nat.le_refl _

theorem checkInterrupt : Widens Eval.checkInterrupt Eval.checkInterrupt := by
  apply of_length_le
  intro s
  unfold Eval.checkInterrupt
  split <;> exact Nat.le_refl _

theorem callNative (host : Host) (f : NativeRef) (args : List Value) :
    Widens (Eval.callNative host f args) (Eval.callNative host f args) := by
  apply of_length_le
  intro s
  rw [Eval.callNative_apply]
  cases (host.call f args s.world.memory).1 <;> exact Nat.le_refl _

theorem withFrame (hle : maxDepth ≤ limit) (frame : Frame) (hact : Widens act act') :
    Widens (Eval.withFrame maxDepth frame act) (Eval.withFrame limit frame act') := by
  intro s hs
  rw [Eval.withFrame_def, Eval.withFrame_def]
  by_cases hdepth : maxDepth ≤ s.stack.depth
  · apply WidensFrom.of_not_returned
    · rw [bind_of_error (push_of_le hdepth)]
      exact Returned.not_overflow
    · rw [bind_of_error (push_of_le hdepth)]
      exact Nat.le_refl _
  · have hlimit : ¬ limit ≤ s.stack.depth := fun h => hdepth (hle.trans h)
    -- The activity keeps the frame that was added as well, so that there is one to be removed.
    have hframed := hact { s with stack := frame :: s.stack } (Nat.succ_pos _)
    have hleft : WidensFrom false s.stack.length (Eval.attempt act >>= Eval.leave)
        (Eval.attempt act' >>= Eval.leave) { s with stack := frame :: s.stack } :=
      hframed.attempt.bind (Nat.le_succ s.stack.length) fun answer t hframes =>
        .leave hframes hs
    refine ⟨?_, fun hreturned => ?_⟩
    · rw [bind_of_ok (push_of_lt hdepth)]
      exact hleft.kept_le
    · rw [bind_of_ok (push_of_lt hdepth)] at hreturned
      rw [bind_of_ok (push_of_lt hdepth), bind_of_ok (push_of_lt hlimit)]
      exact hleft.eq_of_returned hreturned

end Widens

/-! ## 3. Hosts that do not show the limit -/

namespace Instruction

def overflows : (i : Instruction) → i.Outcome → Bool
  | .eval _, answer => isOverflow answer
  | .compile _, answer => isOverflow answer
  | .run _, answer => isOverflow answer
  | .push _, answer => isOverflow answer
  | _, _ => false

def adds : (i : Instruction) → i.Outcome → Nat
  | .push _, .ok _ => 1
  | _, _ => 0

def removes : Instruction → Nat
  | .pop => 1
  | _ => 0

theorem tells {below below' : Interpreter} {maxDepth limit : Nat} (hle : maxDepth ≤ limit)
    (hbelow : ∀ r, Widens (below r) (below' r)) (i : Instruction) {s : State}
    (hs : 0 < s.stack.length) :
    Tells i.overflows i.adds i.removes (i.perform maxDepth below) (i.perform limit below') s := by
  cases i with
  | eval form => exact (hbelow (.eval form) s hs).attempt
  | compile form => exact (hbelow (.compile form) s hs).attempt
  | run e => exact (hbelow (.run e) s hs).attempt
  | push frame =>
    by_cases hdepth : maxDepth ≤ s.stack.depth
    · exact .outcome (Eval.attempt_of_error (push_of_le hdepth)) (Nat.le_refl _) (.inl rfl)
    · have hlimit : ¬ limit ≤ s.stack.depth := fun h => hdepth (hle.trans h)
      exact .outcome (Eval.attempt_of_ok (push_of_lt hdepth)) (Nat.le_refl _)
        (.inr (Eval.attempt_of_ok (push_of_lt hlimit)))
  | pop =>
    obtain ⟨frame, callers, hcons⟩ := List.exists_cons_of_length_pos hs
    by_cases hcallers : callers = []
    · have hpop : Eval.pop s = .error (.error .emptyStack) s := by
        rw [Eval.pop, hcons, hcallers]
        rfl
      exact .of_ok (Eval.attempt_of_error hpop) (Nat.le_succ _)
    · refine .of_ok (Eval.attempt_of_ok (pop_of_cons hcallers hcons)) ?_
      rw [hcons]
      exact Nat.le_refl _
  | bindLocal name v =>
    obtain ⟨t, hbind, hlength⟩ := Eval.bindLocal_eq_ok name v s
    exact .of_ok hbind hlength.ge
  | lookup name =>
    obtain ⟨found, t, hlookup, hstack⟩ := Eval.lookup_eq_ok name s
    exact .of_ok hlookup (hstack ▸ Nat.le_refl _)
  | _ => exact .of_ok rfl (Nat.le_refl _)

end Instruction

/-- Host code that returns nothing but an overflow once it has `seen` one, and that removes no more
frames than the number of its `own` that it has added, forks apart. -/
def Procedure.Discreet : Procedure α → Bool → Nat → Prop
  | .done _, seen, _ => seen = false
  | .fail e, seen, _ => seen = true → e.isOverflow = true
  | .panic _, _, _ => True
  | .step .own i rest, seen, own =>
    i.removes ≤ own ∧ ∀ outcome,
      (rest outcome).Discreet (seen || i.overflows outcome) (own - i.removes + i.adds outcome)
  | .step (.fork _) i rest, seen, own =>
    ∀ outcome, (rest outcome).Discreet (seen || i.overflows outcome) own

def Config.Discreet (config : Config) : Prop :=
  ∀ {α : Type} (procedure : Procedure α), config.Provides procedure → procedure.Discreet false 0

/-- By induction on the code: as many frames are kept as there are without those that it has
added. -/
theorem Procedure.perform_widens {below below' : Interpreter} {maxDepth limit : Nat}
    (hle : maxDepth ≤ limit) (hbelow : ∀ r, Widens (below r) (below' r)) {kept : Nat}
    (hkept : 0 < kept) (procedure : Procedure α) {seen : Bool} {own : Nat}
    (hprocedure : procedure.Discreet seen own) {s : State} (hs : kept + own ≤ s.stack.length) :
    WidensFrom seen kept (procedure.perform maxDepth below) (procedure.perform limit below') s := by
  induction procedure generalizing seen own s with
  | done a => exact ⟨Nat.le_of_add_right_le hs, fun _ => ⟨hprocedure, rfl⟩⟩
  | fail e =>
    refine ⟨Nat.le_of_add_right_le hs, fun hreturned => ⟨?_, rfl⟩⟩
    cases hreturned with
    | error he _ =>
      -- The error is no overflow, so none was seen.
      rw [← Bool.not_eq_true] at he ⊢
      exact fun hseen => he (hprocedure hseen)
  | panic message => exact .of_not_returned nofun (Nat.le_of_add_right_le hs)
  | step target i rest ih =>
    cases target with
    | own =>
      obtain ⟨hown, hrest⟩ := hprocedure
      exact (i.tells hle hbelow (by omega)).bind (Nat.le_of_add_right_le hs) fun outcome t ht =>
        ih outcome (hrest outcome) (by omega)
    | fork n =>
      have hfork := Tells.inFork (s := s) (n := n) fun u hu => i.tells hle hbelow
        (by
          obtain ⟨fork, -, rfl⟩ := Option.map_eq_some_iff.mp hu
          exact List.length_pos_of_ne_nil fork.stack_ne_nil)
      exact hfork.bind (Nat.le_of_add_right_le hs) fun outcome t ht =>
        ih outcome (hprocedure outcome) (hs.trans ht)

theorem Builtins.evalArgument_discreet (args : List Value) :
    (Builtins.evalArgument args).Discreet false 0 := by
  match args with
  | [] => exact fun hseen => nomatch hseen
  | [form] =>
    refine ⟨Nat.le_refl 0, fun answer => ?_⟩
    cases answer with
    | ok v => rfl
    | error e => exact id
  | _ :: _ :: _ => exact fun hseen => nomatch hseen

theorem Config.Standard.discreet {config : Config} (hconfig : config.Standard) : config.Discreet :=
  fun _ => hconfig.provides (P := fun procedure => procedure.Discreet false 0)
    Builtins.evalArgument_discreet (fun _ hseen => nomatch hseen)

/-! ## 4. Two limits -/

section

variable {config : Config} {limit : Nat}

theorem Config.Discreet.congruence (hconfig : config.Discreet) (hle : config.maxDepth ≤ limit)
    {below below' : Interpreter} (hbelow : ∀ r, Widens (below r) (below' r)) :
    Congruence config { config with maxDepth := limit } below below' (@Widens) where
  analyzer_eq := rfl
  expander_eq := rfl
  request := hbelow
  pure := .pure
  fail := .fail
  bind := .bind
  checkInterrupt := .checkInterrupt
  lookup := .lookup
  store _ _ := .of_length_le fun _ => Nat.le_refl _
  spawn _ := .of_length_le fun _ => Nat.le_refl _
  withFrame frame hact := hact.withFrame hle frame
  invocation name callee args := by
    refine .withFrame hle _ (.bind (.of_length_le fun _ => Nat.le_refl _) fun _ => ?_)
    cases callee with
    | native f => exact .callNative config.host f args
    | invokable f =>
      exact fun s hs => Procedure.perform_widens hle hbelow hs _
        (hconfig _ (.invokable f args)) (Nat.le_refl _)
  procedure p hp := fun s hs => p.perform_widens hle hbelow hs (hconfig p hp) (Nat.le_refl _)

namespace Interpreter

theorem interpret_widens (hconfig : config.Discreet) (hle : config.maxDepth ≤ limit) (levels : Nat)
    (r : Request) :
    Widens (interpret config levels r)
      (interpret { config with maxDepth := limit } levels r) :=
  interpret_congr (@Widens) .exhausted
    (fun _ _ hbelow => hconfig.congruence hle hbelow) (Nat.le_refl levels) r

/-- The limit of the depth shows as an overflow or not at all: whatever else a request is answered
by under some limit, a value or an error, is its answer under every greater limit.  The answer is
the same as a whole, so the globals, the frames and all else are left in the same state.

The host may do as it likes, but for hiding an overflow or removing frames of its callers. -/
theorem greater_limit_keeps_answer (hconfig : config.Discreet) (hle : config.maxDepth ≤ limit)
    {r : Request} {s : State} (hs : s.stack ≠ []) {result : EStateM.Result Stop State r.Result}
    (hanswer : Answers config r s result) (hreturned : Returned result) :
    Answers { config with maxDepth := limit } r s result := by
  obtain ⟨levels, rfl, -⟩ := hanswer
  have hwidens := interpret_widens hconfig hle levels r s (List.length_pos_of_ne_nil hs)
  exact ⟨levels, (hwidens.eq_of_returned hreturned).2, hreturned.not_exhausted⟩

def repeating : State where
  stack := .base
  world := Program.standardWorld.store "twice" (.rewriter 0 "twice" ["form"]
    (.list [.symbol "list", .list [.symbol "quote", .symbol "do"], .symbol "form", .symbol "form"]))

/-- The least limit that has room for the body of the macro, on a form that binds a name and then
fails. -/
theorem greater_limit_keeps_answer_repeating :
    { Program.standardConfig with maxDepth := 3 }.Discreet ∧ repeating.stack ≠ [] ∧
    ∃ result, Answers { Program.standardConfig with maxDepth := 3 }
        (.eval (.list [.symbol "twice", .list [.symbol "do",
          .list [.symbol "def", .symbol "x", .int 1],
          .list [.symbol "eval", .list [.symbol "quote", .symbol "missing"]]]])) repeating result ∧
      Program.outcomeOf result = some (.error (.notFound "missing")) ∧ Returned result ∧
      Answers { Program.standardConfig with maxDepth := 1000 }
        (.eval (.list [.symbol "twice", .list [.symbol "do",
          .list [.symbol "def", .symbol "x", .int 1],
          .list [.symbol "eval", .list [.symbol "quote", .symbol "missing"]]]]))
        repeating result := by
  have hconfig : { Program.standardConfig with maxDepth := 3 }.Discreet :=
    (Builtins.library_standard rfl rfl rfl).discreet
  have hs : repeating.stack ≠ [] := List.cons_ne_nil _ _
  have houtcome : Program.outcomeOf (interpret { Program.standardConfig with maxDepth := 3 } 8
      (.eval (.list [.symbol "twice", .list [.symbol "do",
        .list [.symbol "def", .symbol "x", .int 1],
        .list [.symbol "eval", .list [.symbol "quote", .symbol "missing"]]]])) repeating) =
      some (.error (.notFound "missing")) := by cbv
  have hreturned := Returned.of_outcomeOf houtcome rfl (by simp)
  have hanswer : Answers _ _ _ _ := ⟨8, rfl, hreturned.not_exhausted⟩
  exact ⟨hconfig, hs, _, hanswer, houtcome, hreturned,
    greater_limit_keeps_answer hconfig (by decide) hs hanswer hreturned⟩

end Interpreter

end

/-! ## 5. A host that shows the limit -/

/-- Host code that fails by an overflow only if it has `seen` one. -/
def Procedure.Candid : Procedure α → Bool → Prop
  | .done _, _ => True
  | .fail e, seen => e.isOverflow = true → seen = true
  | .panic _, _ => True
  | .step _ i rest, seen => ∀ outcome, (rest outcome).Candid (seen || i.overflows outcome)

/-- Evaluates its argument, and gives nil in the place of an error. -/
def Builtins.attemptArgument : List Value → Procedure Value
  | [form] => .eval form fun answer => .done (answer.toOption.getD .nil)
  | args => .fail (.invalidArgumentCount (.exactly 1) args.length)

/-- Removes the frame of its own call, and evaluates its argument in the frames of its callers. -/
def Builtins.evalBelow (args : List Value) : Procedure Value :=
  .step .own .pop fun _ => evalArgument args

theorem Builtins.attemptArgument_candid (args : List Value) :
    (attemptArgument args).Candid false := by
  match args with
  | [] => exact fun hoverflow => nomatch hoverflow
  | [_] => exact fun _ => trivial
  | _ :: _ :: _ => exact fun hoverflow => nomatch hoverflow

theorem Builtins.evalArgument_candid (args : List Value) : (evalArgument args).Candid false := by
  match args with
  | [] => exact fun hoverflow => nomatch hoverflow
  | [_] =>
    intro answer
    cases answer with
    | ok v => trivial
    | error e => exact id
  | _ :: _ :: _ => exact fun hoverflow => nomatch hoverflow

namespace Interpreter

def forgiving : Library :=
  Builtins.library ++
    [("try", .invokable Builtins.attemptArgument), ("below", .invokable Builtins.evalBelow)]

def forgivingConfig (maxDepth : Nat) : Config :=
  { Program.standardConfig with host := forgiving.host, maxDepth }

def forgivingState : State := ⟨.base, World.empty.storeAll forgiving.bindings⟩

theorem forgivingConfig_candid {maxDepth : Nat} {procedure : Procedure α}
    (hprocedure : (forgivingConfig maxDepth).Provides procedure) : procedure.Candid false := by
  cases hprocedure with
  | invokable f args =>
    change (Library.act forgiving[f.id]? f.name args).Candid false
    unfold Library.act
    split
    · rename_i act hentry
      have hmem := List.mem_of_getElem? hentry
      simp only [forgiving, Builtins.library, Builtins.ofValues, List.cons_append, List.nil_append,
        List.mem_cons, List.not_mem_nil, Prod.mk.injEq, reduceCtorEq, Entry.invokable.injEq,
        and_false, false_or, or_false] at hmem
      rcases hmem with ⟨-, rfl⟩ | ⟨-, rfl⟩ | ⟨-, rfl⟩
      · exact Builtins.evalArgument_candid _
      · exact Builtins.attemptArgument_candid _
      · exact fun _ => Builtins.evalArgument_candid _
    · exact fun hoverflow => absurd hoverflow Bool.false_ne_true
  | parser hanalyzer hparse => cases hanalyzer; cases hparse
  | analyzer hanalyzer => cases hanalyzer
  | expander hexpander => cases hexpander

/-- A call with room for it under a limit of three. -/
def tried : Value :=
  .list [.symbol "try", .list [.symbol "quote", .list [.symbol "list", .int 1]]]

/-- A definition behind a call with room for it under a limit of three. -/
def triedBelow : Value :=
  .list [.symbol "below", .list [.symbol "quote", .list [.symbol "do",
    .list [.symbol "eval", .list [.symbol "quote", .list [.symbol "list", .int 1]]],
    .list [.symbol "def", .symbol "x", .int 1]]]]

/-- No code of this host fails by an overflow of its own, nothing interrupts it and no task is started.
But one callable goes on after an overflow, and so the limit shows in its answer.  Another one removes
the frame of its call, so that there is none to be removed behind it: this fails in place of an
overflow, and the limit shows in the global table. -/
theorem greater_limit_changes_answer :
    (∀ {α : Type} {procedure : Procedure α}, (forgivingConfig 2).Provides procedure →
      procedure.Candid false) ∧
    forgivingState.world.interrupt = none ∧
    (∃ result result',
      Answers (forgivingConfig 2) (.eval tried) forgivingState result ∧
      Answers (forgivingConfig 3) (.eval tried) forgivingState result' ∧
      Program.outcomeOf result = some (.ok .nil) ∧
      Program.outcomeOf result' = some (.ok (.list [.int 1])) ∧
      (Program.stateOf result).world.waiting = []) ∧
    ∃ result result',
      Answers (forgivingConfig 2) (.eval triedBelow) forgivingState result ∧
      Answers (forgivingConfig 3) (.eval triedBelow) forgivingState result' ∧
      Program.outcomeOf result = some (.error .emptyStack) ∧
      Program.outcomeOf result' = some (.error .emptyStack) ∧
      (Program.stateOf result).world.globals.contains "x" = false ∧
      (Program.stateOf result').world.globals.contains "x" = true ∧
      (Program.stateOf result').world.waiting = [] := by
  have hnil : Program.outcomeOf (interpret (forgivingConfig 2) 8 (.eval tried) forgivingState) =
      some (.ok .nil) := by cbv
  have hlist : Program.outcomeOf (interpret (forgivingConfig 3) 8 (.eval tried) forgivingState) =
      some (.ok (.list [.int 1])) := by cbv
  have hbelow : Program.outcomeOf
      (interpret (forgivingConfig 2) 12 (.eval triedBelow) forgivingState) =
      some (.error .emptyStack) := by cbv
  have hbelow' : Program.outcomeOf
      (interpret (forgivingConfig 3) 12 (.eval triedBelow) forgivingState) =
      some (.error .emptyStack) := by cbv
  refine ⟨forgivingConfig_candid, rfl, ⟨_, _, answers_of_outcomeOf hnil, answers_of_outcomeOf hlist,
    hnil, hlist, rfl⟩, _, _, answers_of_outcomeOf hbelow, answers_of_outcomeOf hbelow', hbelow,
    hbelow', ?_, ?_, ?_⟩
  · cbv
  · cbv
  · cbv

end Interpreter

end Lisp
