import Lisp.Proofs.Eval.Simulation

/-!
# Frames

Whatever is asked of the interpreter, it answers with the frames that it was asked with,
`interpret_restores`: also when it fails, at any depth and at the limit of the depth.  The premise is
a contract with the host, `Config.KeepsFrames`: its code leaves the frames as it finds them, as long
as what it asks of the interpreter does.

What has restored the frames leaves the one that was added for it on top.  So the removal of a frame
never fails, and an activity in a frame of its own is `within` the frames of its caller.
-/

namespace Lisp

variable {α β : Type}

/-! ## 1. Activities that restore the frames -/

/-- A result that comes with those frames.  A panic and an exhausted allowance are no results. -/
def Leaves (stack : Stack) : EStateM.Result Stop State α → Prop
  | .ok _ t => t.stack = stack
  | .error (.error _) t => t.stack = stack
  | .error (.panic _) _ => True
  | .error .exhausted _ => True

/-- An activity that ends with the frames it started with.  There is always a frame to start with,
the global one if no other. -/
def Restores (act : Eval α) : Prop :=
  ∀ s : State, s.stack ≠ [] → Leaves s.stack (act s)

namespace Restores

variable {act : Eval α} {f g : α → Eval β} {s : State}

theorem pure (a : α) : Restores (pure a : Eval α) := fun _ _ => rfl

theorem fail (e : Error) : Restores (Eval.fail e : Eval α) := fun _ _ => rfl

theorem panic (message : Option String) : Restores (throw (.panic message) : Eval α) :=
  fun _ _ => trivial

theorem exhausted : Restores (throw .exhausted : Eval α) := fun _ _ => trivial

theorem bind (hact : Restores act) (hf : ∀ a, Restores (f a)) : Restores (act >>= f) := by
  intro s hs
  have hleaves := hact s hs
  rw [bind_eq]
  cases hresult : act s with
  | ok a t =>
    rw [hresult] at hleaves
    have hstack : t.stack = s.stack := hleaves
    rw [← hstack] at hs ⊢
    exact hf a t hs
  | error stop t =>
    rw [hresult] at hleaves
    cases stop with
    | error e => exact hleaves
    | panic message => trivial
    | exhausted => trivial

theorem bind_congr (hact : Restores act) (hs : s.stack ≠ [])
    (hfg : ∀ a t, t.stack = s.stack → f a t = g a t) : (act >>= f) s = (act >>= g) s := by
  have hleaves := hact s hs
  rw [bind_eq, bind_eq]
  cases hresult : act s with
  | ok a t =>
    rw [hresult] at hleaves
    exact hfg a t hleaves
  | error stop t => rfl

theorem mapM {act : α → Eval β} (hact : ∀ a, Restores (act a)) (as : List α) :
    Restores (as.mapM act) := by
  induction as with
  | nil =>
    rw [List.mapM_nil]
    exact pure []
  | cons a as ih =>
    rw [List.mapM_cons]
    exact (hact a).bind fun b => ih.bind fun bs => pure (b :: bs)

theorem foldlM {act : β → α → Eval β} (hact : ∀ b a, Restores (act b a)) (as : List α) (b : β) :
    Restores (as.foldlM act b) := by
  induction as generalizing b with
  | nil =>
    rw [List.foldlM_nil]
    exact pure b
  | cons a as ih =>
    rw [List.foldlM_cons]
    exact (hact b a).bind fun b => ih b

theorem attempt (hact : Restores act) : Restores (Eval.attempt act) := by
  intro s hs
  have hleaves := hact s hs
  unfold Eval.attempt
  cases hresult : act s with
  | ok a t =>
    rw [hresult] at hleaves
    exact hleaves
  | error stop t =>
    rw [hresult] at hleaves
    cases stop with
    | error e => exact hleaves
    | panic message => trivial
    | exhausted => trivial

/-! ## 2. The operations of the interpreter -/

theorem world (change : World → α × World) : Restores (Eval.world change) := fun _ _ => rfl

theorem lookup (name : String) : Restores (Eval.lookup name) := by
  intro s hs
  unfold Eval.lookup
  cases Stack.find? name s.stack with
  | some v => rfl
  | none => rfl

theorem resolve (name : String) : Restores (Eval.resolve name) := by
  refine (lookup name).bind fun found => ?_
  cases found with
  | some v => exact pure v
  | none => exact fail (.notFound name)

theorem checkInterrupt : Restores Eval.checkInterrupt := by
  intro s hs
  unfold Eval.checkInterrupt
  split
  · rfl
  · rfl

theorem spawn (body : Value) : Restores (Eval.spawn body) := fun _ _ => rfl

theorem callNative (host : Host) (f : NativeRef) (args : List Value) :
    Restores (Eval.callNative host f args) := by
  refine (world _).bind fun answer => ?_
  cases answer with
  | value v => exact pure v
  | error e => exact fail e
  | panic message => exact panic message

end Restores

def LeavesBelow (callers : Stack) : EStateM.Result Stop State α → Prop
  | .ok _ t => ∃ frame, t.stack = frame :: callers
  | .error (.error _) t => ∃ frame, t.stack = frame :: callers
  | .error (.panic _) _ => True
  | .error .exhausted _ => True

/-- An activity that does as it likes with the innermost frame, which stays in its place, and leaves
the frames of its callers as they are. -/
def Confined (act : Eval α) : Prop :=
  ∀ (s : State) (frame : Frame) (callers : Stack), s.stack = frame :: callers → callers ≠ [] →
    LeavesBelow callers (act s)

theorem Restores.confined {act : Eval α} (hact : Restores act) : Confined act := by
  intro s frame callers hs _
  have hleaves := hact s (hs ▸ List.cons_ne_nil _ _)
  rw [hs] at hleaves
  cases hresult : act s with
  | ok a t =>
    rw [hresult] at hleaves
    exact ⟨frame, hleaves⟩
  | error stop t =>
    rw [hresult] at hleaves
    cases stop with
    | error e => exact ⟨frame, hleaves⟩
    | panic message => trivial
    | exhausted => trivial

/-! ## 3. An activity in a frame of its own -/

/-- An activity with one frame more than its callers have, which are left in place when it ends.
Nothing is removed here, so nothing can fail to be. -/
def within (callers : Stack) (maxDepth : Nat) (frame : Frame) (act : Eval α) : Eval α := fun s =>
  if maxDepth ≤ callers.depth then
    .error (.error (.stackOverflow maxDepth)) { s with stack := callers }
  else
    match act { s with stack := frame :: callers } with
    | .ok a t => .ok a { t with stack := callers }
    | .error (.error e) t => .error (.error e) { t with stack := callers }
    | .error stop t => .error stop t

section

variable {act : Eval α} {s : State} {maxDepth : Nat} {frame : Frame}

theorem leaves_within (callers : Stack) : Leaves callers (within callers maxDepth frame act s) := by
  unfold within
  split
  · rfl
  · cases act { s with stack := frame :: callers } with
    | ok a t => rfl
    | error stop t => cases stop <;> trivial

theorem push_of_le (h : maxDepth ≤ s.stack.depth) :
    Eval.push maxDepth frame s = .error (.error (.stackOverflow maxDepth)) s := by
  simp only [Eval.push, Stack.push, if_pos h]

theorem push_of_lt (h : ¬ maxDepth ≤ s.stack.depth) :
    Eval.push maxDepth frame s = .ok () { s with stack := frame :: s.stack } := by
  simp only [Eval.push, Stack.push, if_neg h]

theorem pop_of_cons {callers : Stack} (hcallers : callers ≠ []) (hs : s.stack = frame :: callers) :
    Eval.pop s = .ok frame { s with stack := callers } := by
  obtain ⟨below, rest, rfl⟩ := List.exists_cons_of_ne_nil hcallers
  simp only [Eval.pop, hs, Stack.pop]

/-- Whenever a frame is due to be removed, it is there and it is the one that was added. -/
theorem pop_of_framed (hact : Restores act) (hs : s.stack ≠ []) {result : Except Error α}
    {t : State} (h : (do Eval.push maxDepth frame; Eval.attempt act : Eval _) s = .ok result t) :
    Eval.pop t = .ok frame { t with stack := s.stack } := by
  by_cases hdepth : maxDepth ≤ s.stack.depth
  · rw [bind_of_error (push_of_le hdepth)] at h
    -- A frame that did not fit is not removed either.
    cases h
  · rw [bind_of_ok (push_of_lt hdepth)] at h
    have hleaves := hact.attempt { s with stack := frame :: s.stack } (List.cons_ne_nil _ _)
    rw [h] at hleaves
    exact pop_of_cons hs hleaves

theorem withFrame_eq (hact : Confined act) (hs : s.stack ≠ []) :
    Eval.withFrame maxDepth frame act s = within s.stack maxDepth frame act s := by
  unfold Eval.withFrame within
  by_cases hdepth : maxDepth ≤ s.stack.depth
  · rw [if_pos hdepth, bind_of_error (push_of_le hdepth)]
  · rw [if_neg hdepth, bind_of_ok (push_of_lt hdepth)]
    -- The activity leaves a single frame on top of those of the callers, and that one is removed.
    have hleaves := hact { s with stack := frame :: s.stack } frame s.stack rfl hs
    cases hresult : act { s with stack := frame :: s.stack } with
    | ok a t =>
      have hattempt : Eval.attempt act { s with stack := frame :: s.stack } = .ok (.ok a) t := by
        simp only [Eval.attempt, hresult]
      rw [hresult] at hleaves
      obtain ⟨top, htop⟩ := hleaves
      rw [bind_of_ok hattempt, bind_of_ok (pop_of_cons hs htop)]
      rfl
    | error stop t =>
      cases stop with
      | error e =>
        have hattempt : Eval.attempt act { s with stack := frame :: s.stack } =
            .ok (.error e) t := by
          simp only [Eval.attempt, hresult]
        rw [hresult] at hleaves
        obtain ⟨top, htop⟩ := hleaves
        rw [bind_of_ok hattempt, bind_of_ok (pop_of_cons hs htop)]
        rfl
      | panic message =>
        -- A panic goes past the removal of the frame.
        have hattempt : Eval.attempt act { s with stack := frame :: s.stack } =
            .error (.panic message) t := by
          simp only [Eval.attempt, hresult]
        rw [bind_of_error hattempt]
      | exhausted =>
        have hattempt : Eval.attempt act { s with stack := frame :: s.stack } =
            .error .exhausted t := by
          simp only [Eval.attempt, hresult]
        rw [bind_of_error hattempt]

theorem Confined.withFrame (hact : Confined act) :
    Restores (Eval.withFrame maxDepth frame act) := by
  intro s hs
  rw [withFrame_eq hact hs]
  exact leaves_within s.stack

end

/-! ## 4. The contract with the host -/

/-- Host code that leaves the frames as it finds them, as long as the interpreter that it works
with does so. -/
def Procedure.KeepsFrames (config : Config) (procedure : Procedure α) : Prop :=
  ∀ levels, (∀ r, Restores (Interpreter.interpret config levels r)) →
    Restores (procedure.perform config.maxDepth (Interpreter.interpret config levels))

structure Config.KeepsFrames (config : Config) : Prop where
  invokable : ∀ f args, (config.host.invokable f args).KeepsFrames config
  special : ∀ special, config.analyzer = .standard special →
    ∀ name parse, special name = some parse → ∀ parts, (parse parts).KeepsFrames config
  analyzer : ∀ analyze, config.analyzer = .custom analyze →
    ∀ form, (analyze form).KeepsFrames config
  expander : ∀ expand, config.expander = .custom expand →
    ∀ form, (expand form).KeepsFrames config

/-- Host code that leaves the frames of its callers as it finds them, as long as the interpreter that
it works with does so. -/
def Procedure.KeepsCallers (config : Config) (procedure : Procedure α) : Prop :=
  ∀ levels, (∀ r, Restores (Interpreter.interpret config levels r)) →
    Confined (procedure.perform config.maxDepth (Interpreter.interpret config levels))

/-- A configuration whose callables are of that kind: a call has a frame of its own, in which a
callable may bind names.  What works without such a frame leaves all frames as it finds them. -/
structure Config.KeepsCallers (config : Config) : Prop where
  invokable : ∀ f args, (config.host.invokable f args).KeepsCallers config
  special : ∀ special, config.analyzer = .standard special →
    ∀ name parse, special name = some parse → ∀ parts, (parse parts).KeepsFrames config
  analyzer : ∀ analyze, config.analyzer = .custom analyze →
    ∀ form, (analyze form).KeepsFrames config
  expander : ∀ expand, config.expander = .custom expand →
    ∀ form, (expand form).KeepsFrames config

theorem Config.KeepsFrames.keepsCallers {config : Config} (h : config.KeepsFrames) :
    config.KeepsCallers where
  invokable f args levels hbelow := (h.invokable f args levels hbelow).confined
  special := h.special
  analyzer := h.analyzer
  expander := h.expander

theorem Procedure.perform_ofExcept_keeps (maxDepth : Nat) (below : Interpreter)
    (result : Except Error α) : Restores ((Procedure.ofExcept result).perform maxDepth below) := by
  cases result with
  | ok a => exact .pure a
  | error e => exact .fail e

theorem Builtins.evalArgument_keepsFrames (config : Config) (args : List Value) :
    (Builtins.evalArgument args).KeepsFrames config := by
  intro levels hbelow
  match args with
  | [] => exact .fail _
  | [form] =>
    exact (hbelow (.eval form)).attempt.bind fun result =>
      Procedure.perform_ofExcept_keeps _ _ result
  | _ :: _ :: _ => exact .fail _

namespace Interpreter

/-! ## 5. The interpreter -/

section

variable {config : Config} {below : Interpreter} {levels : Nat} {s : State}

theorem applyMacro_restores (hbelow : ∀ r, Restores (below r)) (m : Rewriter) (args : List Value) :
    Restores (applyMacro config below m args) := by
  unfold applyMacro
  split
  · exact (hbelow (.eval m.body)).confined.withFrame
  · exact .fail _

theorem macroOfHead_restores (head : Value) : Restores (macroOfHead head) := by
  cases head with
  | symbol name => exact (Restores.lookup name).bind fun found => .pure _
  | _ => exact .pure _

theorem expandOnce_restores (hbelow : ∀ r, Restores (below r)) (form : Value) :
    Restores (expandOnce config below form) := by
  cases form with
  | list items =>
    cases items with
    | nil => exact .pure none
    | cons head args =>
      refine (macroOfHead_restores head).bind fun found => ?_
      cases found with
      | some m => exact (applyMacro_restores hbelow m args).bind fun v => .pure _
      | none => exact .pure none
  | _ => exact .pure none

theorem expand_restores_of_callers (hconfig : config.KeepsCallers)
    (hbelow : ∀ r, Restores (interpret config levels r)) (form : Value) :
    Restores (expand config (interpret config levels) form) := by
  unfold expand
  cases hexpander : config.expander with
  | standard => exact expandOnce_restores hbelow form
  | custom expand => exact hconfig.expander expand hexpander form levels hbelow

theorem parser_restores (hconfig : config.KeepsCallers)
    {special : String → Option ParseSpecial} (hspecial : config.analyzer = .standard special)
    (hbelow : ∀ r, Restores (interpret config levels r)) {head : Value} {parse : ParseSpecial}
    (hparse : specialOfHead special head = some parse) (parts : List Value) :
    Restores ((parse parts).perform config.maxDepth (interpret config levels)) := by
  cases head with
  | symbol name =>
    unfold specialOfHead at hparse
    cases hown : special name with
    | some own =>
      simp only [hown, Option.some.injEq] at hparse
      rw [← hparse]
      exact hconfig.special special hspecial name own hown parts levels hbelow
    | none =>
      simp only [hown] at hparse
      obtain ⟨form, -, rfl⟩ := Option.map_eq_some_iff.mp hparse
      exact Procedure.perform_ofExcept_keeps _ _ (form.parse parts)
  | _ => cases hparse

theorem analyzeForm_restores (hconfig : config.KeepsCallers)
    {special : String → Option ParseSpecial} (hspecial : config.analyzer = .standard special)
    (hbelow : ∀ r, Restores (interpret config levels r)) (form : Value) :
    Restores (analyzeForm config special (interpret config levels) form) := by
  cases form with
  | list items =>
    cases items with
    | nil => exact .pure _
    | cons head args =>
      simp only [analyzeForm]
      cases hparse : specialOfHead special head with
      | some parse => exact parser_restores hconfig hspecial hbelow hparse args
      | none =>
        exact (hbelow (.compile head)).bind fun target =>
          (Restores.mapM (fun arg => hbelow (.compile arg)) args).bind fun args => .pure _
  | symbol name => exact (Restores.resolve name).bind fun v => .pure _
  | _ => exact .pure _

theorem analyze_restores (hconfig : config.KeepsCallers)
    (hbelow : ∀ r, Restores (interpret config levels r)) (form : Value) :
    Restores (analyze config (interpret config levels) form) := by
  unfold analyze
  cases hanalyzer : config.analyzer with
  | standard special => exact analyzeForm_restores hconfig hanalyzer hbelow form
  | custom analyze => exact hconfig.analyzer analyze hanalyzer form levels hbelow

theorem note_restores (callee : Callee) (args : List Value) :
    Restores (modify fun s => { s with world := s.world.note (.call callee args s.stack) }) :=
  fun _ _ => rfl

theorem call_confined (hconfig : config.KeepsCallers)
    (hbelow : ∀ r, Restores (interpret config levels r)) (callee : Callee) (args : List Value) :
    Confined (call config (interpret config levels) callee args) := by
  intro s frame callers hs hcallers
  cases callee with
  | native f =>
    exact ((note_restores (.native f) args).bind fun _ => .callNative config.host f args).confined
      s frame callers hs hcallers
  | invokable f => exact hconfig.invokable f args levels hbelow _ frame callers hs hcallers

theorem invoke_restores (hconfig : config.KeepsCallers)
    (hbelow : ∀ r, Restores (interpret config levels r)) (name : String) (target : Expr)
    (args : List Expr) : Restores (invoke config (interpret config levels) name target args) := by
  refine Restores.checkInterrupt.bind fun _ => (hbelow (.run target)).bind fun head => ?_
  cases calleeOf head with
  | none => exact .fail _
  | some callee =>
    exact (Restores.mapM (fun arg => hbelow (.run arg)) args).bind fun values =>
      (call_confined hconfig hbelow callee values).withFrame

theorem runExpr_restores (hconfig : config.KeepsCallers)
    (hbelow : ∀ r, Restores (interpret config levels r)) (e : Expr) :
    Restores (runExpr config (interpret config levels) e) := by
  cases e with
  | const v => exact .pure v
  | quote v => exact .pure v
  | define name form =>
    exact (hbelow (.eval form)).bind fun v => (Restores.world _).bind fun _ => .pure _
  | choice test consequent alternative =>
    refine (hbelow (.eval test)).bind fun v => ?_
    split
    · exact hbelow (.eval consequent)
    · cases alternative with
      | some form => exact hbelow (.eval form)
      | none => exact .pure _
  | sequence forms =>
    exact Restores.foldlM (fun _ form => Restores.checkInterrupt.bind fun _ => hbelow (.eval form))
      forms _
  | invoke name target args => exact invoke_restores hconfig hbelow name target args
  | spawn body => exact (Restores.spawn body).bind fun _ => .pure _

theorem interpret_restores_of_callers (hconfig : config.KeepsCallers) (levels : Nat) (r : Request) :
    Restores (interpret config levels r) := by
  -- One level asks for answers of the level below only, whose frames are restored by induction.
  induction levels generalizing r with
  | zero => exact .exhausted
  | succ levels ih =>
    rw [interpret_succ]
    cases r with
    | eval form => exact (ih (.compile form)).bind fun e => ih (.run e)
    | compile form =>
      refine Restores.checkInterrupt.bind fun _ =>
        (expand_restores_of_callers hconfig ih form).bind fun rewritten => ?_
      cases rewritten with
      | some form => exact ih (.compile form)
      | none => exact analyze_restores hconfig ih form
    | run e => exact runExpr_restores hconfig ih e

theorem interpret_restores (hconfig : config.KeepsFrames) (levels : Nat) (r : Request) :
    Restores (interpret config levels r) :=
  interpret_restores_of_callers hconfig.keepsCallers levels r

theorem expand_restores (hconfig : config.KeepsFrames)
    (hbelow : ∀ r, Restores (interpret config levels r)) (form : Value) :
    Restores (expand config (interpret config levels) form) :=
  expand_restores_of_callers hconfig.keepsCallers hbelow form

theorem call_restores (hconfig : config.KeepsFrames)
    (hbelow : ∀ r, Restores (interpret config levels r)) (callee : Callee) (args : List Value) :
    Restores (call config (interpret config levels) callee args) := by
  refine (note_restores callee args).bind fun _ => ?_
  cases callee with
  | native f => exact .callNative config.host f args
  | invokable f => exact hconfig.invokable f args levels hbelow

/-! ## 6. What a callable sees -/

theorem applyMacro_eq (hbelow : ∀ r, Restores (below r)) (hs : s.stack ≠ []) (m : Rewriter)
    (args : List Value) (hargs : args.length = m.params.length) :
    applyMacro config below m args s =
      within s.stack config.maxDepth ⟨m.name, args, .ofList (m.params.zip args)⟩
        (below (.eval m.body)) s := by
  unfold applyMacro
  rw [if_pos hargs, withFrame_eq (hbelow (.eval m.body)).confined hs]

theorem invoke_eq (hconfig : config.KeepsFrames)
    (hbelow : ∀ r, Restores (interpret config levels r)) (hs : s.stack ≠ []) (name : String)
    (target : Expr) (args : List Expr) :
    invoke config (interpret config levels) name target args s =
      (do
        Eval.checkInterrupt
        let head ← interpret config levels (.run target)
        match calleeOf head with
        | none => Eval.fail (.notInvokable head.typeName)
        | some callee =>
          let values ← args.mapM fun arg => interpret config levels (.run arg)
          within s.stack config.maxDepth ⟨name, values, ∅⟩
            (call config (interpret config levels) callee values)) s := by
  refine Restores.checkInterrupt.bind_congr hs fun _ t ht => ?_
  -- The check, the target and the arguments each hand on the frames that they found.
  have htstack : t.stack ≠ [] := ht ▸ hs
  refine (hbelow (.run target)).bind_congr htstack fun head u hu => ?_
  have hustack : u.stack ≠ [] := hu ▸ htstack
  cases calleeOf head with
  | none => rfl
  | some callee =>
    refine (Restores.mapM (fun arg => hbelow (.run arg)) args).bind_congr hustack
      fun values v hv => ?_
    have hvstack : v.stack = s.stack := hv.trans (hu.trans ht)
    rw [withFrame_eq (call_restores hconfig hbelow callee values).confined (hvstack ▸ hs), hvstack]

end

end Interpreter

/-! ## 7. The calls of a run -/

/-- A call is made in a frame of its own, which carries its arguments and lies above the frames of
the caller. -/
def Event.Framed : Event → Prop
  | .call _ args stack => ∃ name callers, stack = ⟨name, args, ∅⟩ :: callers ∧ callers ≠ []
  | .lookup _ => True
  | .store _ _ => True
  | .spawn _ _ => True

structure FramedSince (journal : List Event) (s : State) : Prop where
  stack_ne_nil : s.stack ≠ []
  since : ∃ events, s.world.journal = events ++ journal ∧ ∀ event ∈ events, event.Framed

namespace FramedSince

variable {journal : List Event} {s t : State} {config : Config}

theorem start (hs : s.stack ≠ []) : FramedSince s.world.journal s :=
  ⟨hs, [], rfl, by simp⟩

theorem quiet (hs : FramedSince journal s) (hstack : t.stack ≠ [])
    (hjournal : t.world.journal = s.world.journal) : FramedSince journal t :=
  ⟨hstack, hjournal ▸ hs.since⟩

theorem note (hs : FramedSince journal s) (event : Event) (hstack : t.stack ≠ [])
    (hevent : event.Framed) (hjournal : t.world.journal = event :: s.world.journal) :
    FramedSince journal t := by
  obtain ⟨events, hevents, hframed⟩ := hs.since
  refine ⟨hstack, event :: events, by rw [hjournal, hevents, List.cons_append], ?_⟩
  exact List.forall_mem_cons.mpr ⟨hevent, hframed⟩

theorem preserves_bindLocal (name : String) (v : Value) :
    Preserves (FramedSince journal) (Eval.bindLocal name v) := by
  intro s hs
  unfold Eval.bindLocal
  cases hbind : Stack.bind? name v s.stack with
  | some stack =>
    have hstack : stack ≠ [] := by
      unfold Stack.bind? at hbind
      split at hbind
      · cases hbind
        exact List.cons_ne_nil _ _
      · cases hbind
    exact hs.quiet hstack rfl
  | none => exact hs.note (.store name v) hs.stack_ne_nil trivial rfl

theorem preserves_push (maxDepth : Nat) (frame : Frame) :
    Preserves (FramedSince journal) (Eval.push maxDepth frame) := by
  intro s hs
  by_cases hdepth : maxDepth ≤ s.stack.depth
  · rw [push_of_le hdepth]
    exact hs
  · rw [push_of_lt hdepth]
    exact hs.quiet (List.cons_ne_nil _ _) rfl

theorem preserves_pop : Preserves (FramedSince journal) Eval.pop := by
  intro s hs
  unfold Eval.pop
  split
  · rename_i frame stack hpop
    have hstack : stack ≠ [] := by
      unfold Stack.pop at hpop
      split at hpop
      · cases hpop
        exact List.cons_ne_nil _ _
      · cases hpop
    exact hs.quiet hstack rfl
  · exact hs

theorem preserves_enter (maxDepth : Nat) (name : String) (callee : Callee) (args : List Value) :
    Preserves (FramedSince journal) (Eval.enter maxDepth name callee args) := by
  intro s hs
  unfold Eval.enter
  by_cases hdepth : maxDepth ≤ s.stack.depth
  · rw [bind_of_error (push_of_le hdepth)]
    exact hs
  · rw [bind_of_ok (push_of_lt hdepth)]
    exact hs.note (.call callee args (⟨name, args, ∅⟩ :: s.stack)) (List.cons_ne_nil _ _)
      ⟨name, s.stack, rfl, hs.stack_ne_nil⟩ rfl

theorem preserves_callNative (host : Host) (f : NativeRef) (args : List Value) :
    Preserves (FramedSince journal) (Eval.callNative host f args) := by
  intro s hs
  rw [Eval.callNative_apply]
  cases (host.call f args s.world.memory).1 <;> exact hs.quiet hs.stack_ne_nil rfl

/-- Every operation notes at most one event, and the only ones that note a call have just added its
frame. -/
theorem invariant (config : Config) (journal : List Event) :
    Invariant config (FramedSince journal) where
  lookup name s hs := by
    unfold Eval.lookup
    cases Stack.find? name s.stack with
    | some v => exact hs
    | none => exact hs.note (.lookup name) hs.stack_ne_nil trivial rfl
  bind name v s hs := hs.note (.store name v) hs.stack_ne_nil trivial rfl
  bindLocal := preserves_bindLocal
  push := preserves_push config.maxDepth
  pop := preserves_pop
  spawn body s hs :=
    hs.note (.spawn (s.world.spawn s.stack body).1 body) hs.stack_ne_nil trivial rfl
  enter := preserves_enter config.maxDepth
  callNative := preserves_callNative config.host
  setInterrupt on s hs := hs.quiet hs.stack_ne_nil rfl
  freshIdentity s hs := hs.quiet hs.stack_ne_nil rfl
  remember memory s hs := hs.quiet hs.stack_ne_nil rfl
  fork s hs := hs.quiet hs.stack_ne_nil rfl
  visit n s t hs hvisit := by
    obtain ⟨fork, -, rfl⟩ := Option.map_eq_some_iff.mp hvisit
    exact hs.quiet fork.stack_ne_nil rfl
  back n s t hs ht := ht.quiet hs.stack_ne_nil rfl

end FramedSince

/-! ## 8. The discipline -/

theorem Builtins.library_act_keepsFrames (config : Config) (entry : Option (String × Entry))
    (hentry : ∀ pair, entry = some pair → pair ∈ Builtins.library) (name : String)
    (args : List Value) : (Library.act entry name args).KeepsFrames config := by
  unfold Library.act
  split
  · rename_i act
    have hmem := hentry _ rfl
    -- Of all entries only one is a callable of the interpreter.
    simp only [Builtins.library, Builtins.ofValues, List.mem_cons, List.not_mem_nil, Prod.mk.injEq,
      reduceCtorEq, Entry.invokable.injEq, and_false, false_or, or_false] at hmem
    rw [hmem.2]
    exact Builtins.evalArgument_keepsFrames config args
  · exact fun _ _ => .fail _

theorem Builtins.library_keepsFrames {config : Config} (hhost : config.host = Builtins.library.host)
    (hanalyzer : config.analyzer = .standard noSpecials) (hexpander : config.expander = .standard) :
    config.KeepsFrames where
  invokable f args := by
    rw [hhost]
    exact Builtins.library_act_keepsFrames config _ (fun _ h => List.mem_of_getElem? h) f.name args
  special special hspecial name parse hparse := by
    rw [hanalyzer] at hspecial
    cases hspecial
    cases hparse
  analyzer analyze h := by
    rw [hanalyzer] at h
    cases h
  expander expand h := by
    rw [hexpander] at h
    cases h

namespace Interpreter

/-- The discipline of the frames, for a host that honours its contract, at any level of the
interpreter and from any state.

* Evaluation, analysis, running, rewriting and the application of a macro end with the frames that
  they started with, in a value or in an error.
* A call and a macro see the frames of the caller and above them one of their own.
* The two removals of a frame, after the call and after the body of the macro, find the frame that
  was added on top of the frames that were there before.
* So every call of a run, however deep, is made in a frame of its own with its arguments.
* The builtin that evaluates its argument honours the contract. -/
theorem interpret_frame_discipline {config : Config} (hconfig : config.KeepsFrames) (levels : Nat)
    (s : State) (hs : s.stack ≠ []) :
    ((∀ r, Leaves s.stack (interpret config levels r s)) ∧
      (∀ form, Leaves s.stack (expand config (interpret config levels) form s)) ∧
      (∀ form, Leaves s.stack (expandOnce config (interpret config levels) form s)) ∧
      (∀ m args, Leaves s.stack (applyMacro config (interpret config levels) m args s))) ∧
    ((∀ name target args, interpret config (levels + 1) (.run (.invoke name target args)) s =
        (do
          Eval.checkInterrupt
          let head ← interpret config levels (.run target)
          match calleeOf head with
          | none => Eval.fail (.notInvokable head.typeName)
          | some callee =>
            let values ← args.mapM fun arg => interpret config levels (.run arg)
            within s.stack config.maxDepth ⟨name, values, ∅⟩
              (call config (interpret config levels) callee values)) s) ∧
      (∀ m args, args.length = m.params.length →
        applyMacro config (interpret config levels) m args s =
          within s.stack config.maxDepth ⟨m.name, args, .ofList (m.params.zip args)⟩
            (interpret config levels (.eval m.body)) s)) ∧
    ((∀ frame callee args result t,
        (do
          Eval.push config.maxDepth frame
          Eval.attempt (call config (interpret config levels) callee args) : Eval _) s =
            .ok result t →
        Eval.pop t = .ok frame { t with stack := s.stack }) ∧
      (∀ frame body result t,
        (do
          Eval.push config.maxDepth frame
          Eval.attempt (interpret config levels (.eval body)) : Eval _) s = .ok result t →
        Eval.pop t = .ok frame { t with stack := s.stack })) ∧
    (∀ r, Exhausted (interpret config levels r s) ∨
      ∃ events, (Program.stateOf (interpret config levels r s)).world.journal =
        events ++ s.world.journal ∧ ∀ event ∈ events, event.Framed) ∧
    (∀ args, (Builtins.evalArgument args).KeepsFrames config) := by
  have hbelow := interpret_restores hconfig levels
  refine ⟨⟨?_, ?_, ?_, ?_⟩, ⟨?_, ?_⟩, ⟨?_, ?_⟩, ?_, ?_⟩
  · exact fun r => hbelow r s hs
  · exact fun form => expand_restores hconfig hbelow form s hs
  · exact fun form => expandOnce_restores hbelow form s hs
  · exact fun m args => applyMacro_restores hbelow m args s hs
  · intro name target args
    rw [interpret_succ]
    exact invoke_eq hconfig hbelow hs name target args
  · exact fun m args hargs => applyMacro_eq hbelow hs m args hargs
  · exact fun _ callee args _ _ h => pop_of_framed (call_restores hconfig hbelow callee args) hs h
  · exact fun _ body _ _ h => pop_of_framed (hbelow (.eval body)) hs h
  · intro r
    have hjournal := FramedSince.invariant config s.world.journal
    exact (interpret_preserves hjournal levels r (.start hs)).imp_right FramedSince.since
  · exact Builtins.evalArgument_keepsFrames config

/-- An evaluation inside of an evaluation runs into the limit of the depth, and leaves the frame that
it was asked in. -/
theorem interpret_frame_discipline_overflow :
    { Program.standardConfig with maxDepth := 3 }.KeepsFrames ∧
    ([⟨"f", [.int 1], .ofList [("x", .int 1)]⟩, .global] : Stack) ≠ [] ∧
    Program.outcomeOf (interpret { Program.standardConfig with maxDepth := 3 } 12
      (.eval (.list [.symbol "eval", .list [.symbol "quote", .list [.symbol "list", .symbol "x"]]]))
      ⟨[⟨"f", [.int 1], .ofList [("x", .int 1)]⟩, .global], Program.standardWorld⟩) =
        some (.error (.stackOverflow 3)) ∧
    Leaves [⟨"f", [.int 1], .ofList [("x", .int 1)]⟩, .global]
      (interpret { Program.standardConfig with maxDepth := 3 } 12
        (.eval
          (.list [.symbol "eval", .list [.symbol "quote", .list [.symbol "list", .symbol "x"]]]))
        ⟨[⟨"f", [.int 1], .ofList [("x", .int 1)]⟩, .global], Program.standardWorld⟩) := by
  have hconfig : { Program.standardConfig with maxDepth := 3 }.KeepsFrames :=
    Builtins.library_keepsFrames rfl rfl rfl
  have hdiscipline := interpret_frame_discipline hconfig 12
    ⟨[⟨"f", [.int 1], .ofList [("x", .int 1)]⟩, .global], Program.standardWorld⟩ (by simp)
  exact ⟨hconfig, by simp, rfl, hdiscipline.1.1 _⟩

end Interpreter

end Lisp
