import Lisp.Proofs.Eval.Caching

/-!
# Errors of analysis

Without macros the analysis of a form visits its parts in a fixed order, `Value.visits`: depth-first
and from left to right through calls, the head before the arguments, and never into a special form.
It fails at the first part that is at fault by itself, an unbound symbol or a malformed special
form, and whatever it ends in, it has done nothing by then.  So a call of which some part is at
fault is not even begun.
-/

namespace Lisp

/-! ## 1. Malformed special forms -/

namespace SpecialForm

inductive Malformed : SpecialForm → List Value → Error → Prop
  | choice {parts : List Value} (hcount : parts.length ≠ 2 ∧ parts.length ≠ 3) :
      Malformed .choice parts
        (.invalidSpecialForm "if" "2 or 3 args" (toString parts.length))
  | define {parts : List Value} (hcount : parts.length ≠ 2) :
      Malformed .define parts (.invalidSpecialForm "def" "2 args" (toString parts.length))
  | defined {target value : Value} (htarget : ∀ name, target ≠ .symbol name) :
      Malformed .define [target, value]
        (.invalidSpecialForm "def" "symbol as first arg" target.typeName)
  | blank {name : String} {value : Value}
      (hblank : ∀ c ∈ name.toList, Text.isWhitespace c = true) :
      Malformed .define [.symbol name, value] (.invalidBindName name)
  | quote {parts : List Value} (hcount : parts.length ≠ 1) :
      Malformed .quote parts (.invalidSpecialForm "quote" "1 arg" (toString parts.length))
  | spawn {parts : List Value} (hcount : parts.length ≠ 1) :
      Malformed .spawn parts (.invalidSpecialForm "go" "1 arg" (toString parts.length))

variable {form : SpecialForm} {parts : List Value} {e : Error}

theorem malformed_of_definedName {target value : Value} (h : definedName target = .error e) :
    Malformed .define [target, value] e := by
  cases target with
  | symbol name =>
    rw [definedName] at h
    split at h
    · rename_i hblank
      cases h
      exact .blank (List.all_eq_true.mp hblank)
    · cases h
  | _ =>
    cases h
    exact .defined (by simp)

theorem definedName_of_not_symbol {target : Value} (htarget : ∀ name, target ≠ .symbol name) :
    definedName target =
      .error (.invalidSpecialForm "def" "symbol as first arg" target.typeName) := by
  cases target with
  | symbol name => exact absurd rfl (htarget name)
  | _ => rfl

theorem malformed_of_parse (h : form.parse parts = .error e) : Malformed form parts e := by
  unfold parse at h
  split at h
  · cases h
  · cases h
  · rename_i htwo hthree
    cases h
    refine .choice ⟨fun hlength => ?_, fun hlength => ?_⟩
    · obtain ⟨a, b, rfl⟩ := List.length_eq_two.mp hlength
      exact htwo a b rfl
    · obtain ⟨a, b, c, rfl⟩ := List.length_eq_three.mp hlength
      exact hthree a b c rfl
  · rename_i target value
    cases hname : definedName target with
    | error e' =>
      rw [hname] at h
      cases h
      exact malformed_of_definedName hname
    | ok name =>
      rw [hname] at h
      cases h
  · rename_i htwo
    cases h
    refine .define fun hlength => ?_
    obtain ⟨a, b, rfl⟩ := List.length_eq_two.mp hlength
    exact htwo a b rfl
  · cases h
  · rename_i hone
    cases h
    refine .quote fun hlength => ?_
    obtain ⟨a, rfl⟩ := List.length_eq_one_iff.mp hlength
    exact hone a rfl
  · cases h
  · cases h
  · rename_i hone
    cases h
    refine .spawn fun hlength => ?_
    obtain ⟨a, rfl⟩ := List.length_eq_one_iff.mp hlength
    exact hone a rfl

theorem Malformed.parse_eq (h : Malformed form parts e) : form.parse parts = .error e := by
  cases h with
  | choice hcount =>
    match parts, hcount with
    | [], _ | [_], _ | _ :: _ :: _ :: _ :: _, _ => rfl
    | [_, _], hcount => exact absurd rfl hcount.1
    | [_, _, _], hcount => exact absurd rfl hcount.2
  | define hcount =>
    match parts, hcount with
    | [], _ | [_], _ | _ :: _ :: _ :: _, _ => rfl
    | [_, _], hcount => exact absurd rfl hcount
  | defined htarget =>
    rw [parse, definedName_of_not_symbol htarget]
    rfl
  | blank hblank =>
    rw [parse, definedName, Text.isBlankText, if_pos (List.all_eq_true.mpr hblank)]
    rfl
  | quote hcount =>
    match parts, hcount with
    | [], _ | _ :: _ :: _, _ => rfl
    | [_], hcount => exact absurd rfl hcount
  | spawn hcount =>
    match parts, hcount with
    | [], _ | _ :: _ :: _, _ => rfl
    | [_], hcount => exact absurd rfl hcount

theorem parse_eq_error_iff : form.parse parts = .error e ↔ Malformed form parts e :=
  ⟨malformed_of_parse, Malformed.parse_eq⟩

theorem named_eq_some_iff {symbol : String} : named symbol = some form ↔ symbol = form.name := by
  constructor
  · intro h
    have hname := List.find?_some h
    exact (of_decide_eq_true hname).symm
  · rintro rfl
    cases form <;> rfl

end SpecialForm

/-! ## 2. Results in sequence -/

theorem bind_eq_error_iff {α β : Type} {e : Error} {first : Except Error α}
    {next : α → Except Error β} :
    (first >>= next) = .error e ↔ first = .error e ∨ ∃ a, first = .ok a ∧ next a = .error e := by
  cases first with
  | error other => simp [Bind.bind, Except.bind]
  | ok a => simp [Bind.bind, Except.bind]

theorem bind_pure_eq_error_iff {α β : Type} {e : Error} {first : Except Error α} {f : α → β} :
    (do let a ← first; return f a) = .error e ↔ first = .error e := by
  rw [bind_eq_error_iff]
  exact or_iff_left (by rintro ⟨a, -, ⟨⟩⟩)

theorem exists_ok_iff {α : Type} {result : Except Error α} :
    (∃ a, result = .ok a) ↔ ∀ e, result ≠ .error e := by
  cases result <;> simp

/-! ## 3. What is at fault first -/

namespace Value

mutual

/-- What the analysis of a form looks at, in that order: symbols and special forms.  The head of a
call comes before its arguments, and the parts of a special form are not looked at. -/
def visits : Value → List Value
  | .symbol name => [.symbol name]
  | .list items => if (specialForm? items).isSome then [.list items] else visitsOfItems items
  | _ => []

def visitsOfItems : List Value → List Value
  | [] => []
  | v :: rest => visits v ++ visitsOfItems rest

end

/-- What is wrong with a form by itself, given the meaning of symbols: a symbol without a meaning,
or a special form with the wrong parts. -/
inductive Fault (lookup : String → Option Value) : Value → Error → Prop
  | unbound {name : String} (hname : lookup name = none) :
      Fault lookup (.symbol name) (.notFound name)
  | malformed {form : SpecialForm} {parts : List Value} {e : Error}
      (hparts : SpecialForm.Malformed form parts e) :
      Fault lookup (.list (.symbol form.name :: parts)) e

def Faultless (lookup : String → Option Value) (sites : List Value) : Prop :=
  ∀ v ∈ sites, ∀ e, ¬ Fault lookup v e

/-- The first form of the list that is at fault by itself is so by that error. -/
def FirstFault (lookup : String → Option Value) (sites : List Value) (e : Error) : Prop :=
  ∃ before v after, sites = before ++ v :: after ∧ Faultless lookup before ∧ Fault lookup v e

section

variable {lookup : String → Option Value} {items sites more : List Value} {v : Value} {e : Error}

theorem faultless_nil : Faultless lookup [] := fun _ hv => absurd hv List.not_mem_nil

theorem faultless_append_iff :
    Faultless lookup (sites ++ more) ↔ Faultless lookup sites ∧ Faultless lookup more :=
  List.forall_mem_append

theorem not_firstFault_nil : ¬ FirstFault lookup [] e := by
  rintro ⟨before, v, after, hsplit, -⟩
  cases before <;> cases hsplit

theorem firstFault_singleton_iff : FirstFault lookup [v] e ↔ Fault lookup v e := by
  constructor
  · rintro ⟨before, site, after, hsplit, -, hfault⟩
    cases before with
    | nil =>
      cases hsplit
      exact hfault
    | cons first before => cases before <;> cases hsplit
  · intro hfault
    exact ⟨[], v, [], rfl, faultless_nil, hfault⟩

theorem firstFault_append_iff :
    FirstFault lookup (sites ++ more) e ↔
      FirstFault lookup sites e ∨ Faultless lookup sites ∧ FirstFault lookup more e := by
  constructor
  · rintro ⟨before, v, after, hsplit, hbefore, hfault⟩
    rcases List.append_eq_append_iff.mp hsplit with ⟨rest, rfl, rfl⟩ | ⟨rest, rfl, hrest⟩
    · -- The first list ends in front of the form at fault.
      obtain ⟨hsites, hrest⟩ := faultless_append_iff.mp hbefore
      exact .inr ⟨hsites, rest, v, after, rfl, hrest, hfault⟩
    · cases rest with
      | nil =>
        rw [List.append_nil]
        exact .inr ⟨hbefore, [], v, after, hrest.symm, faultless_nil, hfault⟩
      | cons first rest =>
        obtain ⟨rfl, -⟩ := List.cons_eq_cons.mp hrest
        exact .inl ⟨before, v, rest, rfl, hbefore, hfault⟩
  · rintro (⟨before, v, after, rfl, hbefore, hfault⟩ | ⟨hsites, hmore⟩)
    · exact ⟨before, v, after ++ more, by simp, hbefore, hfault⟩
    · obtain ⟨before, v, after, rfl, hrest, hfault⟩ := hmore
      exact ⟨sites ++ before, v, after, by simp, faultless_append_iff.mpr ⟨hsites, hrest⟩, hfault⟩

theorem faultless_iff : Faultless lookup sites ↔ ∀ e, ¬ FirstFault lookup sites e := by
  constructor
  · rintro hsites e ⟨before, v, after, rfl, -, hfault⟩
    exact hsites v (by simp) e hfault
  · intro hnone
    induction sites with
    | nil => exact faultless_nil
    | cons v rest ih =>
      have hv : Faultless lookup [v] := by
        intro w hw e hfault
        rw [List.mem_singleton.mp hw] at hfault
        exact hnone e ⟨[], v, rest, rfl, faultless_nil, hfault⟩
      refine faultless_append_iff.mpr ⟨hv, ih fun e hrest => hnone e ?_⟩
      exact firstFault_append_iff.mpr (.inr ⟨hv, hrest⟩)

/-! ## 4. The expression of a form, or its first fault -/

theorem specialForm?_eq_some_iff {form : SpecialForm} {head : Value} {parts : List Value} :
    specialForm? (head :: parts) = some form ↔ head = .symbol form.name := by
  constructor
  · intro h
    cases head with
    | symbol name => rw [SpecialForm.named_eq_some_iff.mp h]
    | _ => cases h
  · rintro rfl
    exact SpecialForm.named_eq_some_iff.mpr rfl

theorem fault_symbol_iff {name : String} :
    Fault lookup (.symbol name) e ↔ lookup name = none ∧ e = .notFound name := by
  constructor
  · rintro ⟨hname⟩
    exact ⟨hname, rfl⟩
  · rintro ⟨hname, rfl⟩
    exact .unbound hname

theorem fault_special_iff {form : SpecialForm} {parts : List Value} :
    Fault lookup (.list (.symbol form.name :: parts)) e ↔ SpecialForm.Malformed form parts e := by
  constructor
  · generalize hsite : Value.list (.symbol form.name :: parts) = site
    rintro ⟨⟩
    · cases hsite
    · rename_i other others hparts
      simp only [list.injEq, List.cons.injEq, symbol.injEq] at hsite
      obtain ⟨hname, rfl⟩ := hsite
      have hsame := SpecialForm.named_eq_some_iff.mpr hname
      rw [SpecialForm.named_eq_some_iff.mpr rfl] at hsame
      cases hsame
      exact hparts
  · exact .malformed

theorem compiledItems_eq_error_iff
    (hitems : ∀ v ∈ items, ∀ e, compiled lookup v = .error e ↔ FirstFault lookup v.visits e) :
    compiledItems lookup items = .error e ↔ FirstFault lookup (visitsOfItems items) e := by
  induction items with
  | nil => exact iff_of_false (by rintro ⟨⟩) not_firstFault_nil
  | cons v rest ih =>
    obtain ⟨hv, hrest⟩ := List.forall_mem_cons.mp hitems
    -- The form has an expression exactly if nothing that it visits is at fault.
    have hok : (∃ x, compiled lookup v = .ok x) ↔ Faultless lookup v.visits := by
      rw [exists_ok_iff, faultless_iff]
      exact forall_congr' fun e => not_congr (hv e)
    rw [compiledItems, bind_eq_error_iff, visitsOfItems, firstFault_append_iff, hv, ← hok,
      ← ih hrest]
    simp only [bind_pure_eq_error_iff, exists_and_right]

theorem compiled_call_eq_error_iff {head : Value} {args : List Value}
    (hspecial : specialForm? (head :: args) = none) :
    compiled lookup (.list (head :: args)) = .error e ↔
      compiledItems lookup (head :: args) = .error e := by
  rw [compiled_call hspecial, compiledItems, bind_eq_error_iff, bind_eq_error_iff]
  simp only [bind_pure_eq_error_iff]

/-- A form has no expression exactly if something that it visits is at fault, and the error is that
of the first one. -/
theorem compiled_eq_error_iff {form : Value} :
    ∀ e, compiled lookup form = .error e ↔ FirstFault lookup form.visits e := by
  induction form using induction_of_list with
  | hatom v hv =>
    intro e
    cases v with
    | symbol name =>
      rw [compiled, visits, firstFault_singleton_iff, fault_symbol_iff]
      cases lookup name with
      | some v => simp
      | none => simp [eq_comm]
    | list items => exact absurd rfl (hv items)
    | _ => exact iff_of_false (by rintro ⟨⟩) not_firstFault_nil
  | hlist items ih =>
    intro e
    cases items with
    | nil => exact iff_of_false (by rintro ⟨⟩) not_firstFault_nil
    | cons head args =>
      rw [visits]
      cases hspecial : specialForm? (head :: args) with
      | some form =>
        obtain rfl := specialForm?_eq_some_iff.mp hspecial
        simp only [compiled, hspecial, Option.isSome_some, if_true]
        rw [firstFault_singleton_iff, fault_special_iff]
        exact SpecialForm.parse_eq_error_iff
      | none =>
        rw [compiled_call_eq_error_iff hspecial, if_neg (by simp)]
        exact compiledItems_eq_error_iff ih

end

end Value

/-! ## 5. Analysis of a form -/

namespace Interpreter

variable {config : Config} {s : State} {form : Value}

/-- Without macros the analysis of a form ends, and whatever it ends in, it has stored nothing,
called nothing and started no task, and the frames are as they were.  It fails exactly if it visits
something that is at fault by itself, by the error of the first such thing.  The evaluation of the
form then fails by that error too, and has done nothing either. -/
theorem analysis_fails_at_first_fault (hplain : Plain config s) (form : Value)
    (hform : form.isRewriterFree = true) :
    ∃ outcome, AnswersQuietly config (.compile form) s outcome ∧
      (∀ e, outcome = .error e ↔ Value.FirstFault s.value? form.visits e) ∧
      (∀ e, Value.FirstFault s.value? form.visits e →
        AnswersQuietly config (.eval form) s (.error e)) := by
  have hcompile := answersQuietly_compile hplain form hform
  refine ⟨form.compiled s.value?, hcompile, Value.compiled_eq_error_iff, ?_⟩
  intro e hfault
  rw [(Value.compiled_eq_error_iff e).mpr hfault] at hcompile
  obtain ⟨t, ht, hanswers⟩ := hcompile
  exact ⟨t, ht, hanswers.eval_of_error⟩

/-- An argument without a meaning keeps the definition before it from taking place, though a symbol
inside of a special form is not looked at.  In a sequence the definition does take place. -/
theorem analysis_fails_at_first_fault_argument :
    Plain Program.standardConfig ⟨.base, Program.standardWorld⟩ ∧
    (Value.list [.symbol "list", .list [.symbol "def", .symbol "a", .int 1],
      .list [.symbol "if", .bool true, .symbol "other"], .symbol "missing"]).isRewriterFree = true ∧
    (∃ t, SameEffects ⟨.base, Program.standardWorld⟩ t ∧
      Answers Program.standardConfig
        (.eval (.list [.symbol "list", .list [.symbol "def", .symbol "a", .int 1],
          .list [.symbol "if", .bool true, .symbol "other"], .symbol "missing"]))
        ⟨.base, Program.standardWorld⟩ (.error (.error (.notFound "missing")) t)) ∧
    ∃ t, t.world.globals.get? "a" = some (.int 1) ∧
      Answers Program.standardConfig
        (.eval (.list [.symbol "do", .list [.symbol "def", .symbol "a", .int 1],
          .symbol "missing"]))
        ⟨.base, Program.standardWorld⟩ (.error (.error (.notFound "missing")) t) := by
  have hplain : Plain Program.standardConfig ⟨.base, Program.standardWorld⟩ :=
    .of_entries rfl rfl rfl rfl rfl
  refine ⟨hplain, rfl, ?_, _, rfl, 6, rfl, id⟩
  obtain ⟨outcome, -, -, heval⟩ := analysis_fails_at_first_fault hplain (.list [.symbol "list",
    .list [.symbol "def", .symbol "a", .int 1],
    .list [.symbol "if", .bool true, .symbol "other"], .symbol "missing"]) rfl
  refine heval (.notFound "missing") ⟨[.symbol "list", .list [.symbol "def", .symbol "a", .int 1],
    .list [.symbol "if", .bool true, .symbol "other"]], .symbol "missing", [], rfl, ?_,
    .unbound rfl⟩
  -- What is visited before has a meaning, or the parts that it has to have.
  intro v hv e hfault
  simp only [List.mem_cons, List.not_mem_nil, or_false] at hv
  rcases hv with rfl | rfl | rfl
  · cases (Value.fault_symbol_iff.mp hfault).1
  · have hparts : SpecialForm.Malformed .define _ e := Value.fault_special_iff.mp hfault
    cases SpecialForm.parse_eq_error_iff.mpr hparts
  · have hparts : SpecialForm.Malformed .choice _ e := Value.fault_special_iff.mp hfault
    cases SpecialForm.parse_eq_error_iff.mpr hparts

end Interpreter

end Lisp
