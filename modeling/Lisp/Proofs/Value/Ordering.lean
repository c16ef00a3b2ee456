import Lisp.Proofs.Number.Ordering
import Lisp.Proofs.Value.Equality
import Lisp.Sample.Bindings

/-!
# The order of values

`Ordered` says which values have an order and which one.  Equality and order agree, and so do the
orders of two values both ways round, `equality_and_order_agree`.

An integer is compared with an integer exactly and with a double by the double nearest to it, so
integers that differ may be alike to a double.  The order is transitive all the same, since rounding
keeps it; so values each of which comes before the next one are in strictly ascending order
throughout, `increasing_iff_ascending`.
-/

namespace Lisp.Value

open Number (compareFloats)
open Number.Binary64

variable {a b c : Value} {vs : List Value} {o : Ordering}

/-! ## 1. Which values have an order -/

/-- The two values are of kinds that are compared, neither of them is not-a-number, and the first
has this order to the second. -/
inductive Ordered : Value → Value → Ordering → Prop
  | ints {m n : Int64} {o : Ordering} (h : Ord.compare m n = o) : Ordered (.int m) (.int n) o
  | floats {x y : Float} {o : Ordering} (hx : x.isNaN = false) (hy : y.isNaN = false)
      (h : Ord.compare (rank x) (rank y) = o) : Ordered (.float x) (.float y) o
  | intFloat {n : Int64} {y : Float} {o : Ordering} (hy : y.isNaN = false)
      (h : Ord.compare (rank (ofInt64 n)) (rank y) = o) : Ordered (.int n) (.float y) o
  | floatInt {x : Float} {n : Int64} {o : Ordering} (hx : x.isNaN = false)
      (h : Ord.compare (rank x) (rank (ofInt64 n)) = o) : Ordered (.float x) (.int n) o
  | chars {x y : Char} {o : Ordering} (h : Ord.compare x y = o) : Ordered (.char x) (.char y) o
  | strings {x y : String} {o : Ordering} (h : Ord.compare x y = o) :
      Ordered (.string x) (.string y) o
  | symbols {x y : String} {o : Ordering} (h : Ord.compare x y = o) :
      Ordered (.symbol x) (.symbol y) o
  | keywords {x y : String} {o : Ordering} (h : Ord.compare x y = o) :
      Ordered (.keyword x) (.keyword y) o

theorem order_eq_some_iff : order a b = some o ↔ Ordered a b o := by
  constructor
  · intro h
    unfold order at h
    split at h
    · exact .ints (Option.some.inj h)
    · obtain ⟨hx, hy, h⟩ := compareFloats_eq_some_iff.mp h
      exact .floats hx hy h
    · obtain ⟨-, hy, h⟩ := compareFloats_eq_some_iff.mp h
      exact .intFloat hy h
    · obtain ⟨hx, -, h⟩ := compareFloats_eq_some_iff.mp h
      exact .floatInt hx h
    · exact .chars (Option.some.inj h)
    · exact .strings (Option.some.inj h)
    · exact .symbols (Option.some.inj h)
    · exact .keywords (Option.some.inj h)
    · cases h
  · intro h
    cases h with
    | floats hx hy h => exact compareFloats_eq_some_iff.mpr ⟨hx, hy, h⟩
    | intFloat hy h => exact compareFloats_eq_some_iff.mpr ⟨isNaN_ofInt64 _, hy, h⟩
    | floatInt hx h => exact compareFloats_eq_some_iff.mpr ⟨hx, isNaN_ofInt64 _, h⟩
    | ints h | chars h | strings h | symbols h | keywords h => exact congrArg some h

theorem compare_eq_ok_iff : a.compare b = .ok o ↔ Ordered a b o := by
  rw [← order_eq_some_iff, compare]
  cases order a b <;> simp

theorem compare_eq_error (h : ∀ o, ¬ Ordered a b o) :
    a.compare b = .error (.incomparableTypes a.typeName b.typeName) := by
  have hnone : order a b = none := by
    rw [Option.eq_none_iff_forall_ne_some]
    intro o ho
    exact h o (order_eq_some_iff.mp ho)
  rw [compare, hnone]

/-! ## 2. Mirror images and equality -/

theorem Ordered.swap (h : Ordered a b o) : Ordered b a o.swap := by
  cases h with
  | ints h => exact .ints (h ▸ Std.OrientedCmp.eq_swap)
  | floats hx hy h => exact .floats hy hx (h ▸ Std.OrientedCmp.eq_swap)
  | intFloat hy h => exact .floatInt hy (h ▸ Std.OrientedCmp.eq_swap)
  | floatInt hx h => exact .intFloat hx (h ▸ Std.OrientedCmp.eq_swap)
  | chars h => exact .chars (h ▸ Std.OrientedCmp.eq_swap)
  | strings h => exact .strings (h ▸ Std.OrientedCmp.eq_swap)
  | symbols h => exact .symbols (h ▸ Std.OrientedCmp.eq_swap)
  | keywords h => exact .keywords (h ▸ Std.OrientedCmp.eq_swap)

theorem ordered_swap_iff : Ordered a b o ↔ Ordered b a o.swap := by
  constructor
  · exact Ordered.swap
  · intro h
    have hback := h.swap
    rwa [Ordering.swap_swap] at hback

theorem Ordered.eq_iff (h : Ordered a b o) : o = .eq ↔ a.equals b = true := by
  cases h with
  | ints h | chars h | strings h | symbols h | keywords h =>
    rw [← h, Std.LawfulEqCmp.compare_eq_iff_eq, equals, beq_iff_eq]
  | floats hx hy h => rw [← h, compare_eq_iff_eq, equals, beq_iff_rank hx hy]
  | intFloat hy h => rw [← h, compare_eq_iff_eq, equals, beq_iff_rank (isNaN_ofInt64 _) hy]
  | floatInt hx h =>
    rw [← h, compare_eq_iff_eq, equals, beq_iff_rank (isNaN_ofInt64 _) hx, eq_comm]

/-- Equality and order agree with each other and with their mirror images.  Two values that have an
order have exactly one of the three, and two that have none fail in the same way both ways round.

Which objects of the host are equal is up to the host, and it may be asymmetric; all that is asked is
that the objects in the two values, nested ones included, agree with each other. -/
theorem equality_and_order_agree {a b : Value} (hobjects : SymmetricObjects a b) :
    a.equals b = b.equals a ∧
    (∀ o, a.compare b = .ok o ↔ b.compare a = .ok o.swap) ∧
    ((∃ o isLess isGreater, a.compare b = .ok o ∧ (o = .eq ↔ a.equals b = true) ∧
        a.lt b = .ok isLess ∧ a.gt b = .ok isGreater ∧
        [isLess, isGreater, a.equals b].count true = 1 ∧
        a.le b = .ok (isLess || a.equals b) ∧ a.ge b = .ok (isGreater || a.equals b)) ∨
      a.compare b = .error (.incomparableTypes a.typeName b.typeName) ∧
      b.compare a = .error (.incomparableTypes b.typeName a.typeName)) := by
  refine ⟨equals_comm hobjects, fun o => ?_, ?_⟩
  · rw [compare_eq_ok_iff, compare_eq_ok_iff]
    exact ordered_swap_iff
  · by_cases h : ∃ o, Ordered a b o
    · obtain ⟨o, ho⟩ := h
      have hcompare := compare_eq_ok_iff.mpr ho
      have hequals := ho.eq_iff
      refine .inl ⟨o, o == .lt, o == .gt, hcompare, hequals, ?_⟩
      rw [lt, gt, le, ge, hcompare]
      have hequals' : a.equals b = (o == .eq) := by
        rw [Bool.eq_iff_iff, ← hequals, beq_iff_eq]
      rw [hequals']
      cases o <;> exact ⟨rfl, rfl, rfl, rfl, rfl⟩
    · refine .inr ⟨compare_eq_error fun o ho => h ⟨o, ho⟩, compare_eq_error fun o ho => ?_⟩
      exact h ⟨_, ho.swap⟩

/-- Widgets of one number, each in a vector in a list; and the object that equals nothing. -/
theorem equality_and_order_agree_widgets :
    SymmetricObjects (.list [Sample.widget 1, .vector [Sample.widget 2, .int 3]])
      (.list [Sample.widget 1, .vector [Sample.widget 2, .float 3.0]]) ∧
    SymmetricObjects (Sample.widget 1) Sample.sealedObject ∧
    (Value.list [Sample.widget 1, .vector [Sample.widget 2, .float 3.0]]).equals
      (.list [Sample.widget 1, .vector [Sample.widget 2, .int 3]]) = true ∧
    Sample.sealedObject.equals (Sample.widget 1) = false := by
  have hnested : SymmetricObjects (.list [Sample.widget 1, .vector [Sample.widget 2, .int 3]])
      (.list [Sample.widget 1, .vector [Sample.widget 2, .float 3.0]]) := by
    intro o p ho hp
    simp only [Sample.widget, occurs_list, occurs_vector, occurs_object, occurs_int, occurs_float,
      List.mem_cons, List.not_mem_nil, or_false, exists_eq_or_imp, exists_eq_left, reduceCtorEq,
      false_or, object.injEq] at ho hp
    rcases ho with rfl | rfl <;> rcases hp with rfl | rfl <;> rfl
  have hsealed : SymmetricObjects (Sample.widget 1) Sample.sealedObject := by
    intro o p ho hp
    simp only [Sample.widget, Sample.sealedObject, occurs_object, object.injEq] at ho hp
    obtain ⟨rfl, rfl⟩ := And.intro ho hp
    rfl
  refine ⟨hnested, hsealed, ?_, ?_⟩
  · rw [← (equality_and_order_agree hnested).1]
    decide +kernel
  · rw [← (equality_and_order_agree hsealed).1]
    decide +kernel

/-- An object that equals everything, and one that equals nothing. -/
example : ∃ o p : HostObject,
    (Value.object o).equals (.object p) = true ∧ (Value.object p).equals (.object o) = false :=
  ⟨⟨⟨"any", "#<any>", 0⟩, fun _ => true⟩, ⟨⟨"none", "#<none>", 0⟩, fun _ => false⟩, rfl, rfl⟩

/-! ## 3. Transitivity -/

theorem lt_eq_ok_true_iff : a.lt b = .ok true ↔ Ordered a b .lt := by
  rw [← compare_eq_ok_iff, lt]
  cases a.compare b with
  | error e => exact iff_of_false nofun nofun
  | ok o => cases o <;> decide

theorem compare_int64_eq_lt_iff {m n : Int64} : Ord.compare m n = .lt ↔ m.toInt < n.toInt := by
  rw [← Int64.lt_iff_toInt_lt]
  exact Std.compare_eq_lt

/-- Rounding may make a greater integer and a lesser one alike, but never exchanges them. -/
theorem rank_le_of_compare {m n : Int64} (h : Ord.compare m n = .lt) :
    rank (ofInt64 m) ≤ rank (ofInt64 n) :=
  rank_ofInt64_mono (compare_int64_eq_lt_iff.mp h).le

theorem compare_of_rank_lt {m n : Int64} (h : rank (ofInt64 m) < rank (ofInt64 n)) :
    Ord.compare m n = .lt := by
  rw [compare_int64_eq_lt_iff]
  by_contra hle
  exact absurd (rank_ofInt64_mono (not_lt.mp hle)) (not_le.mpr h)

/-- What comes before a value comes before all that the value comes before.  Among numbers a double
on the way leaves a gap between ranks, which rounding cannot have made. -/
theorem Ordered.lt_trans (h : Ordered a b .lt) (h' : Ordered b c .lt) : Ordered a c .lt := by
  cases h with
  | ints hmn =>
    cases h' with
    | ints hnk => exact .ints (Std.TransCmp.lt_trans hmn hnk)
    | intFloat hz hnz =>
      refine .intFloat hz ?_
      rw [compare_lt_iff_lt] at hnz ⊢
      exact (rank_le_of_compare hmn).trans_lt hnz
  | floats hx hy hxy =>
    cases h' with
    | floats _ hz hyz => exact .floats hx hz (Std.TransCmp.lt_trans hxy hyz)
    | floatInt _ hyn => exact .floatInt hx (Std.TransCmp.lt_trans hxy hyn)
  | intFloat hy hmy =>
    cases h' with
    | floats _ hz hyz => exact .intFloat hz (Std.TransCmp.lt_trans hmy hyz)
    | floatInt _ hyn =>
      exact .ints (compare_of_rank_lt (compare_lt_iff_lt.mp (Std.TransCmp.lt_trans hmy hyn)))
  | floatInt hx hxm =>
    cases h' with
    | ints hmn =>
      refine .floatInt hx ?_
      rw [compare_lt_iff_lt] at hxm ⊢
      exact hxm.trans_le (rank_le_of_compare hmn)
    | intFloat hz hmz => exact .floats hx hz (Std.TransCmp.lt_trans hxm hmz)
  | chars h =>
    cases h' with
    | chars h' => exact .chars (Std.TransCmp.lt_trans h h')
  | strings h =>
    cases h' with
    | strings h' => exact .strings (Std.TransCmp.lt_trans h h')
  | symbols h =>
    cases h' with
    | symbols h' => exact .symbols (Std.TransCmp.lt_trans h h')
  | keywords h =>
    cases h' with
    | keywords h' => exact .keywords (Std.TransCmp.lt_trans h h')

theorem Ordered.self (h : Ordered a b o) : Ordered a a .eq := by
  cases h with
  | ints => exact .ints Std.ReflCmp.compare_self
  | floats hx | floatInt hx => exact .floats hx hx Std.ReflCmp.compare_self
  | intFloat => exact .ints Std.ReflCmp.compare_self
  | chars => exact .chars Std.ReflCmp.compare_self
  | strings => exact .strings Std.ReflCmp.compare_self
  | symbols => exact .symbols Std.ReflCmp.compare_self
  | keywords => exact .keywords Std.ReflCmp.compare_self

/-! ## 4. Ascending values -/

abbrev Before (a b : Value) : Prop := a.lt b = .ok true

/-- Each value comes before all that follow it.  No two values are equal, and if there are several,
any two of them have an order, and not-a-number is not among them. -/
structure Ascending (vs : List Value) : Prop where
  before : vs.Pairwise Before
  distinct : vs.Pairwise fun a b => a.equals b = false
  comparable : 2 ≤ vs.length → ∀ a ∈ vs, ∀ b ∈ vs, ∃ o, a.compare b = .ok o
  isNaN_eq : 2 ≤ vs.length → ∀ x, .float x ∈ vs → x.isNaN = false

instance : Trans Before Before Before where
  trans h h' := lt_eq_ok_true_iff.mpr
    ((lt_eq_ok_true_iff.mp h).lt_trans (lt_eq_ok_true_iff.mp h'))

/-- Only neighbours are compared, up to the first pair out of order. -/
theorem increasing_iff_isChain :
    Builtins.increasing vs = .ok true ↔ vs.IsChain Before := by
  induction vs with
  | nil => exact iff_of_true rfl .nil
  | cons a rest ih =>
    cases rest with
    | nil => exact iff_of_true rfl (.singleton a)
    | cons b rest =>
      rw [List.isChain_cons_cons, ← ih]
      show (a.lt b >>= fun isLess =>
        if isLess then Builtins.increasing (b :: rest) else .ok false) = .ok true ↔
          a.lt b = .ok true ∧ _
      cases a.lt b with
      | error e => exact iff_of_false nofun fun h => nomatch h.1
      | ok isLess =>
        cases isLess with
        | false => exact iff_of_false nofun fun h => nomatch h.1
        | true => exact (and_iff_right rfl).symm

theorem exists_ordered (h : vs.Pairwise Before) (hlength : 2 ≤ vs.length)
    (ha : a ∈ vs) : ∃ b o, Ordered a b o := by
  cases vs with
  | nil => cases ha
  | cons first rest =>
    rw [List.pairwise_cons] at h
    cases ha with
    | head =>
      cases rest with
      | nil => simp at hlength
      | cons b rest => exact ⟨b, _, lt_eq_ok_true_iff.mp (h.1 b (.head _))⟩
    | tail _ ha => exact ⟨first, _, (lt_eq_ok_true_iff.mp (h.1 a ha)).swap⟩

theorem ascending_of_pairwise (h : vs.Pairwise Before) : Ascending vs := by
  have hself : 2 ≤ vs.length → ∀ a ∈ vs, Ordered a a .eq := by
    intro hlength a ha
    obtain ⟨b, o, hab⟩ := exists_ordered h hlength ha
    exact hab.self
  refine ⟨h, ?_, fun hlength => ?_, fun hlength x hx => ?_⟩
  · refine h.imp fun {a b} hab => ?_
    have heq := (lt_eq_ok_true_iff.mp hab).eq_iff
    rw [← Bool.not_eq_true, ← heq]
    exact nofun
  · have : Std.Symm fun a b : Value => ∃ o, a.compare b = .ok o := by
      refine ⟨fun a b hab => ?_⟩
      obtain ⟨o, ho⟩ := hab
      exact ⟨_, compare_eq_ok_iff.mpr (compare_eq_ok_iff.mp ho).swap⟩
    refine List.Pairwise.forall_of_forall ?_ (h.imp fun {a b} hab => ?_)
    · intro a ha
      exact ⟨_, compare_eq_ok_iff.mpr (hself hlength a ha)⟩
    · exact ⟨_, compare_eq_ok_iff.mpr (lt_eq_ok_true_iff.mp hab)⟩
  · cases hself hlength _ hx with
    | floats hx => exact hx

/-- Several values, integers and doubles mixed as they may be, pass `<` just if they are in strictly
ascending order throughout. -/
theorem increasing_iff_ascending :
    Builtins.Provides "<" (fun args => (Builtins.increasing args).map .bool) ∧
    ∀ vs, Builtins.increasing vs = .ok true ↔ Ascending vs := by
  constructor
  · refine Builtins.provides_of_entry (i := 3) ?_
    have hreply : ∀ result : Except Error Bool,
        Builtins.replyOf .bool result = Builtins.replyOf id (result.map .bool) := by
      intro result
      cases result <;> rfl
    simp only [← hreply]
    rfl
  · intro vs
    rw [increasing_iff_isChain, List.isChain_iff_pairwise]
    exact ⟨ascending_of_pairwise, Ascending.before⟩

/-- The first two integers are alike to a double. -/
example : Builtins.increasing
    [.int 9007199254740992, .int 9007199254740993, .float 9007199254740994.0] = .ok true := by
  decide +kernel

end Lisp.Value
