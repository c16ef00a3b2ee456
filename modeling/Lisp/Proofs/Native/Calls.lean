import Lisp.Library
import Mathlib

/-!
# Calls of native functions

What becomes of the arguments of a call.  A wrong number of them is refused first, whatever they
are; then the leftmost one that does not convert to the type of its parameter is; and otherwise the
body of the function runs once, on the converted arguments in their places.

A function on typed arguments receives what the converted arguments stand for: to read a converted
argument never fails, and there are as many of them as parameters.
-/

namespace Lisp

/-! ## 1. Arguments as their types -/

namespace ParamType

variable {t : ParamType} {v w : Value}

/-- To read an argument as a type is to convert it: both succeed with the same value, or both fail
by the same error. -/
theorem map_give_take (t : ParamType) (v : Value) : (t.take v).map t.give = t.coerce v := by
  cases t <;> cases v <;> rfl

theorem take_give (a : t.Carrier) : t.take (t.give a) = .ok a := by
  cases t <;> rfl

theorem coerce_give (a : t.Carrier) : t.coerce (t.give a) = .ok (t.give a) := by
  rw [← map_give_take, take_give]
  rfl

theorem exists_give_of_coerce (h : t.coerce v = .ok w) : ∃ a, t.take v = .ok a ∧ t.give a = w := by
  rw [← map_give_take] at h
  cases htake : t.take v with
  | ok a =>
    rw [htake] at h
    cases h
    exact ⟨a, rfl, rfl⟩
  | error e =>
    rw [htake] at h
    cases h

theorem coerce_of_coerce (h : t.coerce v = .ok w) : t.coerce w = .ok w := by
  obtain ⟨a, -, rfl⟩ := exists_give_of_coerce h
  exact coerce_give a

theorem coerce_eq_error (h : ∀ w, t.coerce v ≠ .ok w) :
    t.coerce v = .error (.invalidArgumentType t.name v.typeName) := by
  unfold coerce at h ⊢
  cases hconvert : t.convert v with
  | none => rfl
  | some w =>
    rw [hconvert] at h
    exact absurd rfl (h w)

end ParamType

/-! ## 2. Signatures -/

namespace Signature

variable {s : Signature} {t : ParamType} {v w : Value} {args accepted rest : List Value}
  {i count : Nat}

def arity (s : Signature) : Arity :=
  if s.isVariadic then .atLeast s.params.length else .exactly s.params.length

def Takes (s : Signature) (count : Nat) : Prop :=
  if s.isVariadic then s.params.length ≤ count else count = s.params.length

/-- The type of the argument in that place: that of the fixed parameter there, or behind all of
these the variadic one. -/
def typeAt (s : Signature) (i : Nat) : Option ParamType := s.params[i]?.or s.variadic

def Misfit (s : Signature) (args : List Value) (i : Nat) (t : ParamType) (v : Value) : Prop :=
  s.typeAt i = some t ∧ args[i]? = some v ∧ ∀ w, t.coerce v ≠ .ok w

/-- As many arguments as there were, each of them converted to the type of its parameter. -/
structure Received (s : Signature) (args accepted : List Value) : Prop where
  length_eq : accepted.length = args.length
  coerce_eq : ∀ i t v, s.typeAt i = some t → args[i]? = some v →
    ∃ w, t.coerce v = .ok w ∧ accepted[i]? = some w

def behind (s : Signature) : Signature := ⟨s.params.tail, s.variadic⟩

theorem arityError_of_takes (h : s.Takes count) : s.arityError count = none := by
  unfold Takes isVariadic at h
  unfold arityError
  cases hvariadic : s.variadic <;> simp_all

theorem arityError_of_not_takes (h : ¬ s.Takes count) :
    s.arityError count = some (.invalidArgumentCount s.arity count) := by
  unfold Takes isVariadic at h
  unfold arityError arity isVariadic
  cases hvariadic : s.variadic <;> simp_all

theorem typeAt_succ (s : Signature) (i : Nat) : s.typeAt (i + 1) = s.behind.typeAt i := by
  simp [typeAt, behind]

theorem Takes.behind (h : s.Takes (count + 1)) :
    (∃ t, s.typeAt 0 = some t) ∧ s.behind.Takes count := by
  obtain ⟨params, variadic⟩ := s
  cases params <;> cases variadic <;> simp_all [Takes, isVariadic, typeAt, Signature.behind]

theorem coerceAll_cons (h : s.typeAt 0 = some t) :
    coerceAll s.params s.variadic (v :: rest) = (do
      let first ← t.coerce v
      let others ← coerceAll s.behind.params s.behind.variadic rest
      return first :: others) := by
  obtain ⟨params, variadic⟩ := s
  cases params with
  | nil =>
    simp only [typeAt, List.getElem?_nil, Option.none_or] at h
    subst h
    rfl
  | cons first params =>
    cases h
    rfl

theorem misfit_succ_iff :
    s.Misfit (v :: rest) (i + 1) t w ↔ s.behind.Misfit rest i t w := by
  rw [Misfit, Misfit, typeAt_succ, List.getElem?_cons_succ]

theorem Received.cons {first : Value} (htype : s.typeAt 0 = some t)
    (hfirst : t.coerce v = .ok first) (hrest : s.behind.Received rest accepted) :
    s.Received (v :: rest) (first :: accepted) where
  length_eq := by rw [List.length_cons, List.length_cons, hrest.length_eq]
  coerce_eq i u x hu hx := by
    cases i with
    | zero =>
      rw [htype] at hu
      cases hu
      cases hx
      exact ⟨first, hfirst, rfl⟩
    | succ i => exact hrest.coerce_eq i u x (typeAt_succ s i ▸ hu) hx

theorem Received.uncons (h : s.Received (v :: rest) accepted) (htype : s.typeAt 0 = some t) :
    ∃ (a : t.Carrier) (others : List Value), accepted = t.give a :: others ∧
      s.behind.Received rest others := by
  obtain ⟨first, others, rfl⟩ := List.exists_cons_of_length_eq_add_one h.length_eq
  obtain ⟨w, hw, hfirst⟩ := h.coerce_eq 0 t v htype rfl
  cases hfirst
  obtain ⟨a, -, rfl⟩ := ParamType.exists_give_of_coerce hw
  refine ⟨a, others, rfl, Nat.succ.inj h.length_eq, fun i u x hu hx => ?_⟩
  exact h.coerce_eq (i + 1) u x ((typeAt_succ s i).trans hu) hx

theorem coerceAll_of_no_misfit (htakes : s.Takes args.length)
    (hfit : ∀ i t v, ¬ s.Misfit args i t v) :
    ∃ accepted, coerceAll s.params s.variadic args = .ok accepted ∧ s.Received args accepted := by
  induction args generalizing s with
  | nil => exact ⟨[], by rw [coerceAll], rfl, by simp⟩
  | cons v rest ih =>
    obtain ⟨⟨t, htype⟩, hbehind⟩ := htakes.behind
    obtain ⟨first, hfirst⟩ : ∃ first, t.coerce v = .ok first := by
      by_contra hnone
      exact hfit 0 t v ⟨htype, rfl, not_exists.mp hnone⟩
    obtain ⟨others, hothers, hreceived⟩ := ih hbehind fun i t w hmisfit =>
      hfit (i + 1) t w (misfit_succ_iff.mpr hmisfit)
    refine ⟨first :: others, ?_, .cons htype hfirst hreceived⟩
    rw [coerceAll_cons htype, hfirst, hothers]
    rfl

theorem coerceAll_of_misfit (htakes : s.Takes args.length) (hmisfit : s.Misfit args i t v)
    (hleftmost : ∀ j < i, ∀ t v, ¬ s.Misfit args j t v) :
    coerceAll s.params s.variadic args = .error (.invalidArgumentType t.name v.typeName) := by
  induction args generalizing s i with
  | nil => cases hmisfit.2.1
  | cons w rest ih =>
    obtain ⟨⟨u, htype⟩, hbehind⟩ := htakes.behind
    rw [coerceAll_cons htype]
    cases i with
    | zero =>
      obtain ⟨ht, hv, hfails⟩ := hmisfit
      rw [htype] at ht
      cases ht
      cases hv
      rw [ParamType.coerce_eq_error hfails]
      rfl
    | succ i =>
      obtain ⟨first, hfirst⟩ : ∃ first, u.coerce w = .ok first := by
        by_contra hnone
        exact hleftmost 0 (Nat.succ_pos i) u w ⟨htype, rfl, not_exists.mp hnone⟩
      have hrest := ih hbehind (misfit_succ_iff.mp hmisfit) fun j hj t v hbefore =>
        hleftmost (j + 1) (Nat.succ_lt_succ hj) t v (misfit_succ_iff.mpr hbefore)
      rw [hfirst, hrest]
      rfl

end Signature

/-! ## 3. Typed functions -/

inductive Arguments : List ParamType → Type
  | nil : Arguments []
  | cons {t : ParamType} {types : List ParamType} (a : t.Carrier) (rest : Arguments types) :
      Arguments (t :: types)

namespace Arguments

def values : {types : List ParamType} → Arguments types → List Value
  | [], .nil => []
  | t :: _, .cons a rest => t.give a :: rest.values

def apply : {types : List ParamType} → Arguments types → Native.Curried types → Reply
  | [], .nil, reply => reply
  | _ :: _, .cons a rest, f => rest.apply (f a)

end Arguments

namespace Native

variable {t : ParamType} {types : List ParamType} {args accepted : List Value}

theorem feed_values (count : Nat) (f : Curried types) (typed : Arguments types) :
    feed count types f typed.values = typed.apply f := by
  induction typed with
  | nil => rfl
  | cons a rest ih =>
    rw [Arguments.values, feed, ParamType.take_give]
    exact ih (f a)

theorem takeAll_map_give (items : List t.Carrier) : takeAll t (items.map t.give) = .ok items := by
  induction items with
  | nil => rfl
  | cons a rest ih =>
    rw [List.map_cons, takeAll, ParamType.take_give, ih]
    rfl

theorem exists_arguments (hlength : args.length = types.length)
    (h : (Signature.fixed types).Received args accepted) :
    ∃ typed : Arguments types, typed.values = accepted := by
  induction types generalizing args accepted with
  | nil =>
    rw [List.length_eq_zero_iff.mp hlength] at h
    rw [List.length_eq_zero_iff.mp h.length_eq]
    exact ⟨.nil, rfl⟩
  | cons t types ih =>
    obtain ⟨v, rest, rfl⟩ := List.exists_cons_of_length_eq_add_one hlength
    obtain ⟨a, others, rfl, hrest⟩ := h.uncons rfl
    obtain ⟨typed, rfl⟩ := ih (Nat.succ.inj hlength) hrest
    exact ⟨.cons a typed, rfl⟩

theorem exists_items (h : (Signature.mk [] (some t)).Received args accepted) :
    ∃ items : List t.Carrier, items.map t.give = accepted := by
  induction args generalizing accepted with
  | nil =>
    rw [List.length_eq_zero_iff.mp h.length_eq]
    exact ⟨[], rfl⟩
  | cons v rest ih =>
    obtain ⟨a, others, rfl, hrest⟩ := h.uncons rfl
    obtain ⟨items, rfl⟩ := ih hrest
    exact ⟨a :: items, rfl⟩

end Native

/-! ## 4. Calls -/

namespace Signature

variable {s : Signature} {t : ParamType} {v : Value} {args : List Value} {i : Nat}

theorem accept_of_not_takes (htakes : ¬ s.Takes args.length) :
    s.accept args = .error (.invalidArgumentCount s.arity args.length) := by
  rw [accept, arityError_of_not_takes htakes]

theorem accept_of_misfit (htakes : s.Takes args.length) (hmisfit : s.Misfit args i t v)
    (hleftmost : ∀ j < i, ∀ t v, ¬ s.Misfit args j t v) :
    s.accept args = .error (.invalidArgumentType t.name v.typeName) := by
  rw [accept, arityError_of_takes htakes]
  exact coerceAll_of_misfit htakes hmisfit hleftmost

theorem accept_of_no_misfit (htakes : s.Takes args.length) (hfit : ∀ i t v, ¬ s.Misfit args i t v) :
    ∃ accepted, s.accept args = .ok accepted ∧ s.Received args accepted := by
  rw [accept, arityError_of_takes htakes]
  exact coerceAll_of_no_misfit htakes hfit

end Signature

theorem Library.call_native {library : Library} {id : Nat} {key : String} {n : Native}
    (hentry : library[id]? = some (key, .native n)) (name : String) (args : List Value)
    (memory : Nat) :
    library.host.call ⟨id, name, n.signature⟩ args memory = (n.call args, memory) := by
  rw [Host.call, Native.call]
  cases n.signature.accept args with
  | error e => rfl
  | ok accepted =>
    simp only [Library.host, hentry]
    rfl

namespace Native

theorem ofFunction_call {types : List ParamType} {args : List Value} (f : Curried types)
    (hlength : args.length = types.length)
    (hfit : ∀ i t v, ¬ (Signature.fixed types).Misfit args i t v) :
    ∃ typed : Arguments types, (Signature.fixed types).Received args typed.values ∧
      (ofFunction types f).call args = typed.apply f := by
  obtain ⟨accepted, haccept, hreceived⟩ :=
    Signature.accept_of_no_misfit (s := .fixed types) hlength hfit
  obtain ⟨typed, rfl⟩ := exists_arguments hlength hreceived
  refine ⟨typed, hreceived, ?_⟩
  rw [call, ofFunction, haccept]
  exact feed_values _ f typed

theorem ofItems_call {t : ParamType} {args : List Value} (f : List t.Carrier → Reply)
    (hfit : ∀ i u v, ¬ (Signature.mk [] (some t)).Misfit args i u v) :
    ∃ items : List t.Carrier, (Signature.mk [] (some t)).Received args (items.map t.give) ∧
      (ofItems t f).call args = f items := by
  obtain ⟨accepted, haccept, hreceived⟩ :=
    Signature.accept_of_no_misfit (s := ⟨[], some t⟩) (Nat.zero_le args.length) hfit
  obtain ⟨items, rfl⟩ := exists_items hreceived
  refine ⟨items, hreceived, ?_⟩
  rw [call, ofItems, haccept]
  show Reply.after (takeAll t (items.map t.give)) f = f items
  rw [takeAll_map_give]
  rfl

end Native

/-- A native function is called in one of three ways, where `memory` is what the host remembers, and
so tells whether the body of the function has run.

* A number of arguments that the signature does not take is refused, whatever the arguments are.
* Otherwise an argument that does not convert is refused, the leftmost one if there are several.
* Otherwise the body runs once, on the converted arguments in their places.

The functions of a library are called so.  If such a function is made of one on typed arguments, one
after the other or any number of the same type, that function receives what the converted arguments
stand for, and its reply is the result.  Reading an argument as a type agrees with converting it,
and to convert it again changes nothing. -/
theorem native_call_converts_arguments :
    (∀ (host : Host) (f : NativeRef) (args : List Value) (memory : Nat),
      (¬ f.signature.Takes args.length →
        host.call f args memory =
          (.error (.invalidArgumentCount f.signature.arity args.length), memory)) ∧
      (f.signature.Takes args.length → ∀ i t v, f.signature.Misfit args i t v →
        (∀ j < i, ∀ t v, ¬ f.signature.Misfit args j t v) →
        host.call f args memory = (.error (.invalidArgumentType t.name v.typeName), memory)) ∧
      (f.signature.Takes args.length → (∀ i t v, ¬ f.signature.Misfit args i t v) →
        ∃ accepted, f.signature.Received args accepted ∧
          host.call f args memory = host.native f accepted memory)) ∧
    (∀ (library : Library) (id : Nat) (key name : String) (n : Native) (args : List Value)
      (memory : Nat), library[id]? = some (key, .native n) →
        library.host.call ⟨id, name, n.signature⟩ args memory = (n.call args, memory)) ∧
    (∀ (types : List ParamType) (f : Native.Curried types) (args : List Value),
      args.length = types.length → (∀ i t v, ¬ (Signature.fixed types).Misfit args i t v) →
      ∃ typed : Arguments types, (Signature.fixed types).Received args typed.values ∧
        (Native.ofFunction types f).call args = typed.apply f) ∧
    (∀ (t : ParamType) (f : List t.Carrier → Reply) (args : List Value),
      (∀ i u v, ¬ (Signature.mk [] (some t)).Misfit args i u v) →
      ∃ items : List t.Carrier, (Signature.mk [] (some t)).Received args (items.map t.give) ∧
        (Native.ofItems t f).call args = f items) ∧
    (∀ (t : ParamType) (v : Value), (t.take v).map t.give = t.coerce v ∧
      ∀ w, t.coerce v = .ok w → t.coerce w = .ok w) := by
  refine ⟨fun host f args memory => ⟨?_, ?_, ?_⟩, ?_, ?_, ?_, ?_⟩
  · intro htakes
    rw [Host.call, Signature.accept_of_not_takes htakes]
  · intro htakes i t v hmisfit hleftmost
    rw [Host.call, Signature.accept_of_misfit htakes hmisfit hleftmost]
  · intro htakes hfit
    obtain ⟨accepted, haccept, hreceived⟩ := Signature.accept_of_no_misfit htakes hfit
    refine ⟨accepted, hreceived, ?_⟩
    rw [Host.call, haccept]
  · intro library id key name n args memory hentry
    exact Library.call_native hentry name args memory
  · exact fun types f args => Native.ofFunction_call f
  · exact fun t f args => Native.ofItems_call f
  · exact fun t v => ⟨ParamType.map_give_take t v, fun w => ParamType.coerce_of_coerce⟩

/-- A host that counts its calls, and a function of a string and any number of integers: without an
argument or with a boolean among the integers the function is not called. -/
theorem native_call_converts_arguments_counting :
    (⟨fun _ args calls => (.value (.list args), calls + 1), fun _ _ => .done .nil⟩ : Host).call
        ⟨0, "join", ⟨[.string], some .int⟩⟩ [] 7 =
      (.error (.invalidArgumentCount (.atLeast 1) 0), 7) ∧
    (⟨fun _ args calls => (.value (.list args), calls + 1), fun _ _ => .done .nil⟩ : Host).call
        ⟨0, "join", ⟨[.string], some .int⟩⟩ [.string "a", .int 1, .bool true, .nil] 7 =
      (.error (.invalidArgumentType "int" "bool"), 7) ∧
    (⟨fun _ args calls => (.value (.list args), calls + 1), fun _ _ => .done .nil⟩ : Host).call
        ⟨0, "join", ⟨[.string], some .int⟩⟩ [.string "a", .int 1, .int 2] 7 =
      (.value (.list [.string "a", .int 1, .int 2]), 8) := by
  refine ⟨?_, ?_, rfl⟩
  · exact (native_call_converts_arguments.1 _ ⟨0, "join", ⟨[.string], some .int⟩⟩ [] 7).1
      (Nat.not_succ_le_zero 0)
  · refine (native_call_converts_arguments.1 _ ⟨0, "join", ⟨[.string], some .int⟩⟩
      [.string "a", .int 1, .bool true, .nil] 7).2.1 (Nat.le_add_left 1 3) 2 .int (.bool true)
      ⟨rfl, rfl, fun w h => by cases h⟩ ?_
    rintro j hj t v ⟨ht, hv, hfails⟩
    interval_cases j
    · cases ht
      cases hv
      exact hfails _ rfl
    · cases ht
      cases hv
      exact hfails _ rfl

end Lisp
