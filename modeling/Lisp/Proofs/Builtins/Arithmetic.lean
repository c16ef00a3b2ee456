import Lisp.Proofs.Builtins.Provided

/-!
# Arithmetic on any number of values

An operation works its arguments off from left to right.  As long as they are integers the running
result is exact, and the first one that 64 bits do not hold is an error; from the first double on it
is a double.  So what is answered depends on the leftmost argument that stops the operation, if there
is one: `Running` is what holds of the running result before it.
-/

namespace Lisp.Builtins

variable {op : Operator} {total : List Int → Int} {before args : List Value} {acc v w : Value}
  {ns : List Int64} {n : Int} {e : Error}

/-! ## 1. Numbers -/

def Held (n : Int) : Prop := -2 ^ 63 ≤ n ∧ n < 2 ^ 63

instance (n : Int) : Decidable (Held n) := inferInstanceAs (Decidable (_ ∧ _))

theorem held_toInt (n : Int64) : Held n.toInt := ⟨n.le_toInt, n.toInt_lt⟩

theorem int64OfInt_of_held (h : Held n) : ∃ r, int64OfInt n = some r ∧ r.toInt = n := by
  obtain ⟨hlow, hhigh⟩ := h
  have hrange : Int64.minValue.toInt ≤ n ∧ n ≤ Int64.maxValue.toInt := by
    show -2 ^ 63 ≤ n ∧ n ≤ 2 ^ 63 - 1
    omega
  exact ⟨_, if_pos hrange, Int64.toInt_ofInt_of_le hlow hhigh⟩

theorem int64OfInt_of_not_held (h : ¬ Held n) : int64OfInt n = none := by
  refine if_neg fun hrange => h ?_
  replace hrange : -2 ^ 63 ≤ n ∧ n ≤ 2 ^ 63 - 1 := hrange
  unfold Held
  omega

def IsFloat (v : Value) : Prop := ∃ x, v = .float x

def IsNumber (v : Value) : Prop := (∃ n, v = .int n) ∨ IsFloat v

theorem toFloat?_of_isNumber (h : IsNumber v) : ∃ x, toFloat? v = some x := by
  rcases h with ⟨n, rfl⟩ | ⟨x, rfl⟩
  · exact ⟨_, rfl⟩
  · exact ⟨_, rfl⟩

theorem toFloat?_of_not_isNumber (h : ¬ IsNumber v) : toFloat? v = none := by
  cases v with
  | int n => exact absurd (.inl ⟨n, rfl⟩) h
  | float x => exact absurd (.inr ⟨x, rfl⟩) h
  | _ => rfl

theorem isNumber_of_mem_ints (h : v ∈ ns.map .int) : IsNumber v := by
  obtain ⟨n, -, rfl⟩ := List.mem_map.mp h
  exact .inl ⟨n, rfl⟩

theorem not_isFloat_of_mem_ints (h : v ∈ ns.map .int) : ¬ IsFloat v := by
  obtain ⟨n, -, rfl⟩ := List.mem_map.mp h
  rintro ⟨x, hx⟩
  cases hx

theorem eq_of_map_int {ms : List Int64} (h : ms.map Value.int = ns.map .int) : ms = ns :=
  List.map_injective_iff.mpr (fun _ _ hint => Value.int.inj hint) h

/-! ## 2. Two values -/

theorem combine_ints (op : Operator) (m n : Int64) :
    combine op (.int m) (.int n) = match int64OfInt (op.onInts m.toInt n.toInt) with
      | some r => .ok (.int r)
      | none => .error (.integerOverflow op.name) := rfl

theorem combine_of_isFloat (h : IsFloat v ∨ IsFloat w) (hv : IsNumber v) (hw : IsNumber w) :
    ∃ x, combine op v w = .ok (.float x) := by
  rcases hv with ⟨m, rfl⟩ | ⟨x, rfl⟩
  · rcases hw with ⟨n, rfl⟩ | ⟨y, rfl⟩
    · rcases h with ⟨x, hx⟩ | ⟨y, hy⟩
      · cases hx
      · cases hy
    · exact ⟨_, rfl⟩
  · rcases hw with ⟨n, rfl⟩ | ⟨y, rfl⟩
    · exact ⟨_, rfl⟩
    · exact ⟨_, rfl⟩

theorem combine_of_not_isNumber_left (hv : ¬ IsNumber v) :
    combine op v w = .error (notANumber v) := by
  have hnone := toFloat?_of_not_isNumber hv
  unfold combine
  split
  · exact absurd (.inl ⟨_, rfl⟩) hv
  · rw [hnone]

theorem combine_of_not_isNumber_right (hv : IsNumber v) (hw : ¬ IsNumber w) :
    combine op v w = .error (notANumber w) := by
  have hnone := toFloat?_of_not_isNumber hw
  obtain ⟨x, hx⟩ := toFloat?_of_isNumber hv
  unfold combine
  split
  · exact absurd (.inl ⟨_, rfl⟩) hw
  · rw [hnone, hx]

/-! ## 3. What stops an operation -/

/-- The operation stops at a value with an error, the values before it having been worked off: the
value is no number, or all values up to it are integers and 64 bits do not hold their total. -/
inductive Stops (op : Operator) (total : List Int → Int) (before : List Value) (v : Value) :
    Error → Prop
  | notANumber (hv : ¬ IsNumber v) : Stops op total before v (.invalidArgumentType "number" v.typeName)
  | overflow {ns : List Int64} (hints : before ++ [v] = ns.map .int)
      (htotal : ¬ Held (total (ns.map Int64.toInt))) :
      Stops op total before v (.integerOverflow op.name)

def Runs (op : Operator) (total : List Int → Int) (args : List Value) : Prop :=
  ∀ before v behind e, args = before ++ v :: behind → ¬ Stops op total before v e

/-- 64 bits hold the result of every leading part of the integers: all results on the way. -/
def HeldThroughout (total : List Int → Int) (ns : List Int64) : Prop :=
  ∀ leading ≠ [], leading <+: ns → Held (total (leading.map Int64.toInt))

/-- The operation is exact or fails.  `total` is its result on integers of any size. -/
structure ExactOrFails (op : Operator) (total : List Int → Int) (args : List Value)
    (result : Except Error Value) : Prop where
  /-- Integers give their total if 64 bits hold all results on the way. -/
  exact : ∀ ns : List Int64, args = ns.map .int → HeldThroughout total ns →
    ∃ r : Int64, result = .ok (.int r) ∧ r.toInt = total (ns.map Int64.toInt)
  /-- Otherwise they give an error that names the operation. -/
  overflow : ∀ ns : List Int64, args = ns.map .int → ¬ HeldThroughout total ns →
    result = .error (.integerOverflow op.name)
  /-- Values of any kinds give the error of the first one that stops the operation. -/
  stopped : ∀ before v behind e, args = before ++ v :: behind → Runs op total before →
    Stops op total before v e → result = .error e
  /-- If there is none, the result is a double just if there is one among the values. -/
  kind : Runs op total args →
    (∃ v ∈ args, IsFloat v) ∧ (∃ x, result = .ok (.float x)) ∨
      (∀ v ∈ args, ¬ IsFloat v) ∧ ∃ r, result = .ok (.int r)

theorem Stops.unique {e' : Error} (h : Stops op total before v e) (h' : Stops op total before v e') :
    e = e' := by
  have hnumber : ∀ ns : List Int64, before ++ [v] = ns.map .int → IsNumber v := fun ns hints =>
    isNumber_of_mem_ints (hints ▸ List.mem_append_right before List.mem_cons_self)
  cases h with
  | notANumber hv =>
    cases h' with
    | notANumber => rfl
    | overflow hints => exact absurd (hnumber _ hints) hv
  | overflow hints =>
    cases h' with
    | notANumber hv => exact absurd (hnumber _ hints) hv
    | overflow => rfl

theorem runs_nil : Runs op total [] := by
  intro before v behind e h
  exact absurd h (by simp)

theorem Runs.prefix_of_stops {first rest behind : List Value} (hfirst : Runs op total first)
    (hstops : Stops op total before v e) (heq : first ++ rest = before ++ v :: behind) :
    ∃ middle, before = first ++ middle ∧ rest = middle ++ v :: behind := by
  rcases List.append_eq_append_iff.mp heq with ⟨middle, hbefore, hrest⟩ | ⟨middle, hsplit, htail⟩
  · exact ⟨middle, hbefore, hrest⟩
  · cases middle with
    | nil => exact ⟨[], by simpa using hsplit.symm, by simpa using htail.symm⟩
    | cons w middle =>
      cases htail
      exact absurd hstops (hfirst before v middle e hsplit)

theorem runs_concat (hbefore : Runs op total before) (hv : ∀ e, ¬ Stops op total before v e) :
    Runs op total (before ++ [v]) := by
  intro first w rest e heq hstops
  obtain ⟨middle, rfl, hlast⟩ := hbefore.prefix_of_stops hstops heq
  obtain ⟨rfl, rfl, rfl⟩ : middle = [] ∧ v = w ∧ rest = [] := by
    cases middle <;> simp_all
  exact hv e (by simpa using hstops)

theorem runs_or_stops (op : Operator) (total : List Int → Int) (args : List Value) :
    Runs op total args ∨ ∃ before v behind e, args = before ++ v :: behind ∧
      Runs op total before ∧ Stops op total before v e := by
  induction args using List.reverseRecOn with
  | nil => exact .inl runs_nil
  | append_singleton before v ih =>
    rcases ih with hbefore | ⟨first, w, rest, e, rfl, hfirst, hstops⟩
    · by_cases hv : ∃ e, Stops op total before v e
      · obtain ⟨e, hstops⟩ := hv
        exact .inr ⟨before, v, [], e, rfl, hbefore, hstops⟩
      · exact .inl (runs_concat hbefore (not_exists.mp hv))
    · exact .inr ⟨first, w, rest ++ [v], e, by simp, hfirst, hstops⟩

/-! ## 4. The running result -/

/-- What the running result is once the values before have been worked off: the total of integers,
or a double if there is one among them. -/
inductive Running (total : List Int → Int) (before : List Value) : Value → Prop
  | int {ns : List Int64} {r : Int64} (hints : before = ns.map .int)
      (hr : r.toInt = total (ns.map Int64.toInt)) : Running total before (.int r)
  | float {x : Float} (hfloat : ∃ v ∈ before, IsFloat v) : Running total before (.float x)

theorem Running.isNumber (h : Running total before acc) : IsNumber acc := by
  cases h with
  | int => exact .inl ⟨_, rfl⟩
  | float => exact .inr ⟨_, rfl⟩

def Continues (op : Operator) (total : List Int → Int) (count : Nat) : Prop :=
  ∀ ns n, count ≤ ns.length → total (ns ++ [n]) = op.onInts (total ns) n

theorem Continues.total_concat {count : Nat} {m n : Int64} (hlaw : Continues op total count)
    (hcount : count ≤ ns.length) (hm : m.toInt = total (ns.map Int64.toInt)) :
    total ((ns ++ [n]).map Int64.toInt) = op.onInts m.toInt n.toInt := by
  rw [List.map_append, hm]
  exact hlaw _ _ (hcount.trans_eq (List.length_map _).symm)

section Step

variable {count : Nat} (hlaw : Continues op total count) (hcount : count ≤ before.length)
  (hacc : Running total before acc)

include hlaw hcount hacc

theorem Running.combine_ok (hv : ∀ e, ¬ Stops op total before v e) :
    ∃ next, combine op acc v = .ok next ∧ Running total (before ++ [v]) next := by
  have hnumber : IsNumber v := by
    by_contra hnot
    exact hv _ (.notANumber hnot)
  by_cases hfloat : IsFloat acc ∨ IsFloat v
  · obtain ⟨x, hx⟩ := combine_of_isFloat hfloat hacc.isNumber hnumber
    refine ⟨.float x, hx, .float ?_⟩
    rcases hfloat with ⟨y, rfl⟩ | hfloat
    · cases hacc with
      | float hbefore =>
        obtain ⟨w, hw, hfloat⟩ := hbefore
        exact ⟨w, List.mem_append_left _ hw, hfloat⟩
    · exact ⟨v, List.mem_append_right _ List.mem_cons_self, hfloat⟩
  · obtain ⟨m, rfl⟩ := hacc.isNumber.resolve_right fun h => hfloat (.inl h)
    obtain ⟨n, rfl⟩ := hnumber.resolve_right fun h => hfloat (.inr h)
    cases hacc with
    | @int ns _ hints hm =>
      subst hints
      rw [List.length_map] at hcount
      have hlast : ns.map Value.int ++ [.int n] = (ns ++ [n]).map .int := by simp
      have htotal := hlaw.total_concat (n := n) hcount hm
      have hheld : Held (op.onInts m.toInt n.toInt) := by
        by_contra hnot
        exact hv _ (.overflow hlast (htotal ▸ hnot))
      obtain ⟨r, hr, hvalue⟩ := int64OfInt_of_held hheld
      exact ⟨.int r, by rw [combine_ints, hr], .int hlast (hvalue.trans htotal.symm)⟩

theorem Running.combine_error (hv : Stops op total before v e) : combine op acc v = .error e := by
  cases hv with
  | notANumber hnot => exact combine_of_not_isNumber_right hacc.isNumber hnot
  | @overflow ns hints htotal =>
    obtain ⟨ms, last, rfl, hms, hlast⟩ := List.map_eq_append_iff.mp hints.symm
    obtain ⟨n, rfl, hn⟩ := List.map_eq_singleton_iff.mp hlast
    subst hms hn
    cases hacc with
    | float hfloat =>
      obtain ⟨w, hw, hfloat⟩ := hfloat
      exact absurd hfloat (not_isFloat_of_mem_ints hw)
    | @int ns m hints hm =>
      obtain rfl := eq_of_map_int hints
      rw [List.length_map] at hcount
      rw [hlaw.total_concat hcount hm] at htotal
      rw [combine_ints, int64OfInt_of_not_held htotal]

theorem Running.foldNumbers_ok (hruns : Runs op total (before ++ args)) :
    ∃ result, foldNumbers op acc args = .ok result ∧ Running total (before ++ args) result := by
  induction args generalizing before acc with
  | nil => exact ⟨acc, rfl, by rwa [List.append_nil]⟩
  | cons v rest ih =>
    obtain ⟨next, hnext, hrunning⟩ :=
      hacc.combine_ok hlaw hcount fun e => hruns before v rest e rfl
    rw [List.append_cons] at hruns ⊢
    obtain ⟨result, hresult, hlast⟩ :=
      ih (hcount.trans (by simp)) hrunning hruns
    refine ⟨result, ?_, hlast⟩
    rw [← hresult, foldNumbers, List.foldlM_cons, hnext]
    rfl

theorem Running.foldNumbers_error {behind : List Value} (hruns : Runs op total (before ++ args))
    (hv : Stops op total (before ++ args) v e) :
    foldNumbers op acc (args ++ v :: behind) = .error e := by
  obtain ⟨next, hnext, hrunning⟩ := hacc.foldNumbers_ok hlaw hcount hruns
  have hlast := hrunning.combine_error hlaw (hcount.trans (by simp)) hv
  rw [foldNumbers] at hnext
  rw [foldNumbers, List.foldlM_append, hnext]
  show ((v :: behind).foldlM (combine op) next : Except Error Value) = .error e
  rw [List.foldlM_cons, hlast]
  rfl

end Step

/-! ## 5. Whole lists -/

theorem runs_ints_iff (op : Operator) (total : List Int → Int) (ns : List Int64) :
    Runs op total (ns.map .int) ↔ HeldThroughout total ns := by
  constructor
  · intro hruns leading hne hleading
    by_contra hnot
    obtain ⟨rest, rfl⟩ := hleading
    obtain ⟨first, n, rfl⟩ : ∃ first n, leading = first ++ [n] :=
      ⟨_, _, (List.dropLast_append_getLast hne).symm⟩
    have hints : first.map Value.int ++ [.int n] = (first ++ [n]).map .int := by simp
    exact hruns (first.map .int) (.int n) (rest.map .int) _ (by simp) (.overflow hints hnot)
  · intro hheld before v behind e heq hstops
    cases hstops with
    | notANumber hv =>
      have hmem : v ∈ ns.map Value.int := heq ▸ List.mem_append_right before List.mem_cons_self
      exact hv (isNumber_of_mem_ints hmem)
    | @overflow leading hints htotal =>
      refine htotal (hheld leading ?_ ?_)
      · rintro rfl
        simp at hints
      · rw [List.append_cons, hints] at heq
        obtain ⟨first, rest, rfl, hfirst, -⟩ := List.map_eq_append_iff.mp heq
        exact eq_of_map_int hfirst ▸ List.prefix_append first rest

theorem exists_overflow (op : Operator) (h : ¬ HeldThroughout total ns) :
    ∃ before v behind, ns.map Value.int = before ++ v :: behind ∧ Runs op total before ∧
      Stops op total before v (.integerOverflow op.name) := by
  rcases runs_or_stops op total (ns.map .int) with hruns | ⟨before, v, behind, e, heq, hruns, hstops⟩
  · exact absurd ((runs_ints_iff op total ns).mp hruns) h
  · have hmem : v ∈ ns.map Value.int := heq ▸ List.mem_append_right before List.mem_cons_self
    refine ⟨before, v, behind, heq, hruns, ?_⟩
    cases hstops with
    | notANumber hv => exact absurd (isNumber_of_mem_ints hmem) hv
    | overflow hints htotal => exact .overflow hints htotal

theorem exactOrFails_foldNumbers {count : Nat} (hlaw : Continues op total count)
    (hcount : count ≤ before.length) (hbefore : Runs op total before)
    (hacc : Running total before acc) (args : List Value) :
    ExactOrFails op total (before ++ args) (foldNumbers op acc args) where
  exact ns hints hheld := by
    have hruns := (runs_ints_iff op total ns).mpr hheld
    rw [← hints] at hruns
    obtain ⟨result, hresult, hrunning⟩ := hacc.foldNumbers_ok hlaw hcount hruns
    rw [hints] at hrunning
    cases hrunning with
    | int hints hr => exact ⟨_, hresult, eq_of_map_int hints ▸ hr⟩
    | float hfloat =>
      obtain ⟨v, hv, hfloat⟩ := hfloat
      exact absurd hfloat (not_isFloat_of_mem_ints hv)
  overflow ns hints hbig := by
    obtain ⟨first, v, behind, heq, hruns, hstops⟩ := exists_overflow op hbig
    obtain ⟨middle, rfl, rfl⟩ := hbefore.prefix_of_stops hstops (hints.trans heq)
    exact hacc.foldNumbers_error hlaw hcount hruns hstops
  stopped first v behind e heq hruns hstops := by
    obtain ⟨middle, rfl, rfl⟩ := hbefore.prefix_of_stops hstops heq
    exact hacc.foldNumbers_error hlaw hcount hruns hstops
  kind hruns := by
    obtain ⟨result, hresult, hrunning⟩ := hacc.foldNumbers_ok hlaw hcount hruns
    cases hrunning with
    | int hints => exact .inr ⟨fun v hv => not_isFloat_of_mem_ints (hints ▸ hv), _, hresult⟩
    | float hfloat => exact .inl ⟨hfloat, _, hresult⟩

theorem exactOrFails_of_not_isNumber (op : Operator) (total : List Int → Int)
    (hv : ¬ IsNumber v) (rest : List Value) :
    ExactOrFails op total (v :: rest) (.error (notANumber v)) where
  exact ns hints _ := absurd (isNumber_of_mem_ints (hints ▸ List.mem_cons_self)) hv
  overflow ns hints _ := absurd (isNumber_of_mem_ints (hints ▸ List.mem_cons_self)) hv
  stopped before w behind e heq hruns hstops := by
    cases before with
    | nil =>
      cases heq
      exact congrArg _ (Stops.unique (.notANumber hv) hstops)
    | cons first before =>
      cases heq
      exact absurd (.notANumber hv) (hruns [] v before _ rfl)
  kind hruns := absurd (.notANumber hv) (hruns [] v rest _ rfl)

/-! ## 6. The operations -/

theorem continues_sum : Continues .plus List.sum 0 := by
  intro ns n _
  rw [List.sum_append, List.sum_singleton]
  rfl

theorem continues_prod : Continues .times List.prod 0 := by
  intro ns n _
  rw [List.prod_append, List.prod_singleton]
  rfl

def difference : List Int → Int
  | [] => 0
  | n :: ns => ns.foldl (· - ·) n

theorem continues_difference : Continues .minus difference 1 := by
  intro ns n hcount
  obtain ⟨first, rest, rfl⟩ := List.exists_cons_of_length_pos hcount
  show (rest ++ [n]).foldl (· - ·) first = _
  rw [List.foldl_append]
  rfl

theorem exactOrFails_subtract (first second : Value) (rest : List Value) :
    ExactOrFails .minus difference (first :: second :: rest) (subtract (first :: second :: rest)) := by
  by_cases hfirst : IsNumber first
  · have hrunning : Running difference [first] first := by
      rcases hfirst with ⟨n, rfl⟩ | hfloat
      · have hints : [Value.int n] = [n].map .int := rfl
        exact .int hints rfl
      · obtain ⟨x, rfl⟩ := hfloat
        exact .float ⟨_, List.mem_cons_self, x, rfl⟩
    have hruns : Runs .minus difference [first] := by
      refine runs_concat runs_nil fun e hstops => ?_
      cases hstops with
      | notANumber hnot => exact hnot hfirst
      | @overflow ns hints htotal =>
        obtain ⟨n, rfl, -⟩ := List.map_eq_singleton_iff.mp hints.symm
        exact htotal (held_toInt n)
    exact exactOrFails_foldNumbers continues_difference (Nat.le_refl [first].length) hruns hrunning _
  · have hsubtract : subtract (first :: second :: rest) = .error (notANumber first) := by
      show foldNumbers .minus first (second :: rest) = _
      rw [foldNumbers, List.foldlM_cons, combine_of_not_isNumber_left hfirst]
      rfl
    rw [hsubtract]
    exact exactOrFails_of_not_isNumber _ _ hfirst _

theorem subtract_singleton (v : Value) : subtract [v] = subtract [.int 0, v] := by
  show combine .minus (.int 0) v = [v].foldlM (combine .minus) (.int 0)
  rw [List.foldlM_cons]
  exact (bind_pure _).symm

/-- The sum and the product of any arguments and the difference of at least two are exact or fail,
and the difference of a single one is that of zero and it.  A program that calls the library's `+`,
`*` and `-` is answered with these. -/
theorem arithmetic_exact_or_fails :
    (Provides "+" add ∧ Provides "*" multiply ∧ Provides "-" subtract) ∧
    (∀ args, ExactOrFails .plus List.sum args (add args)) ∧
    (∀ args, ExactOrFails .times List.prod args (multiply args)) ∧
    (∀ first second rest, ExactOrFails .minus difference (first :: second :: rest)
      (subtract (first :: second :: rest))) ∧
    (∀ v, ExactOrFails .minus difference [.int 0, v] (subtract [v])) := by
  have hnone : ([] : List Value) = ([] : List Int64).map .int := rfl
  refine ⟨⟨?_, ?_, ?_⟩, fun args => ?_, fun args => ?_, exactOrFails_subtract, fun v => ?_⟩
  · exact provides_of_entry (i := 0) rfl
  · exact provides_of_entry (i := 1) rfl
  · exact provides_of_entry (i := 2) rfl
  · exact exactOrFails_foldNumbers continues_sum (Nat.zero_le _) runs_nil (.int hnone rfl) args
  · exact exactOrFails_foldNumbers continues_prod (Nat.zero_le _) runs_nil (.int hnone rfl) args
  · rw [subtract_singleton]
    exact exactOrFails_subtract (.int 0) v []

/-- An overflow comes before a value behind it that is no number, and the least integer has no
negation. -/
theorem arithmetic_exact_or_fails_limits :
    add [.int Int64.maxValue, .int 1, .nil] = .error (.integerOverflow "+") ∧
    subtract [.int Int64.minValue] = .error (.integerOverflow "-") ∧
    ∃ r : Int64, multiply [.int Int64.minValue, .int 1, .int 0] = .ok (.int r) ∧ r.toInt = 0 := by
  obtain ⟨-, hadd, hmultiply, -, hnegate⟩ := arithmetic_exact_or_fails
  refine ⟨?_, ?_, ?_⟩
  · have hruns : Runs .plus List.sum [.int Int64.maxValue] := by
      refine (runs_ints_iff .plus List.sum [Int64.maxValue]).mpr fun leading hne hleading => ?_
      obtain rfl : leading = [Int64.maxValue] := by
        simpa [List.prefix_cons_iff, hne] using hleading
      decide
    have hints : [Value.int Int64.maxValue] ++ [.int 1] = [Int64.maxValue, 1].map .int := rfl
    exact (hadd _).stopped [.int Int64.maxValue] (.int 1) [.nil] _ rfl hruns
      (.overflow hints (by decide))
  · refine (hnegate _).overflow [0, Int64.minValue] rfl fun hheld => ?_
    exact absurd (hheld _ (by simp) (List.prefix_refl _)) (by decide)
  · refine (hmultiply _).exact [Int64.minValue, 1, 0] rfl fun leading hne hleading => ?_
    simp only [List.prefix_cons_iff, List.prefix_nil] at hleading
    rcases hleading with h | ⟨_, rfl, h | ⟨_, rfl, h | ⟨_, rfl, h⟩⟩⟩
    · exact absurd h hne
    all_goals subst h; decide

end Lisp.Builtins
