import Lisp.Proofs.Builtins.Provided
import Lisp.Proofs.Number.Integers
import Lisp.Value.Order

/-!
# Equality of values

`Alike` says what equality means for each pair of kinds, with the items of lists and vectors compared
by it in turn.  Equality is reflexive but for not-a-number and objects of the host.  It is symmetric if
the host's own equality of objects is, `SymmetricObjects`, of which nothing is known otherwise.  Without
objects it is transitive as long as no double in the middle is nearest to two integers: an integer is
compared with a double by the double nearest to it, and beyond 53 binary digits several integers share
one.
-/

namespace Lisp.Value

open Number.Binary64 (ofInt64 beq_self beq_symm beq_trans)

variable {a b c v w : Value} {as bs cs items : List Value}

/-! ## 1. What equality means -/

abbrev Itemwise (as bs : List Value) : Prop := List.Forall₂ (fun a b => a.equals b = true) as bs

/-- The two values are of kinds that compare, and are the same as such. -/
inductive Alike : Value → Value → Prop
  | nil : Alike .nil .nil
  | bool (b : Bool) : Alike (.bool b) (.bool b)
  | ints (n : Int64) : Alike (.int n) (.int n)
  | floats {x y : Float} (h : (x == y) = true) : Alike (.float x) (.float y)
  | intFloat {n : Int64} {x : Float} (h : (ofInt64 n == x) = true) : Alike (.int n) (.float x)
  | floatInt {x : Float} {n : Int64} (h : (ofInt64 n == x) = true) : Alike (.float x) (.int n)
  | char (c : Char) : Alike (.char c) (.char c)
  | string (text : String) : Alike (.string text) (.string text)
  | symbol (name : String) : Alike (.symbol name) (.symbol name)
  | keyword (name : String) : Alike (.keyword name) (.keyword name)
  | list {as bs : List Value} (h : Itemwise as bs) :
      Alike (.list as) (.list bs)
  | vector {as bs : List Value} (h : Itemwise as bs) :
      Alike (.vector as) (.vector bs)
  | rewriter (id : Nat) (name name' : String) (params params' : List String) (body body' : Value) :
      Alike (.rewriter id name params body) (.rewriter id name' params' body')
  | native {f g : NativeRef} (h : f.id = g.id) : Alike (.native f) (.native g)
  | invokable {f g : InvokableRef} (h : f.id = g.id) : Alike (.invokable f) (.invokable g)
  | object {o p : HostObject} (h : o.equals p.toObjectData = true) : Alike (.object o) (.object p)

theorem equalItems_iff :
    equalItems as bs = true ↔ Itemwise as bs := by
  induction as generalizing bs with
  | nil => cases bs <;> simp [equalItems]
  | cons a as ih => cases bs <;> simp [equalItems, ih]

theorem equals_iff : a.equals b = true ↔ Alike a b := by
  constructor
  · intro h
    unfold equals at h
    split at h
    · exact .nil
    · exact eq_of_beq h ▸ .bool _
    · exact eq_of_beq h ▸ .ints _
    · exact .floats h
    · exact .intFloat h
    · exact .floatInt h
    · exact eq_of_beq h ▸ .char _
    · exact eq_of_beq h ▸ .string _
    · exact eq_of_beq h ▸ .symbol _
    · exact eq_of_beq h ▸ .keyword _
    · exact .list (equalItems_iff.mp h)
    · exact .vector (equalItems_iff.mp h)
    · exact eq_of_beq h ▸ .rewriter _ _ _ _ _ _ _
    · exact .native (eq_of_beq h)
    · exact .invokable (eq_of_beq h)
    · exact .object h
    · cases h
  · intro h
    cases h with
    | list h | vector h => simpa only [equals] using equalItems_iff.mpr h
    | _ => simp_all [equals]

theorem induction_of_nested {P : Value → Prop}
    (h : ∀ v, (∀ items, v = .list items ∨ v = .vector items → ∀ w ∈ items, P w) → P v) (v : Value) :
    P v := by
  apply h
  intro items hitems w hw
  have hsize := List.sizeOf_lt_of_mem hw
  exact induction_of_nested h w
termination_by sizeOf v
decreasing_by
  rcases hitems with rfl | rfl
  · simp only [list.sizeOf_spec]
    omega
  · simp only [vector.sizeOf_spec]
    omega

/-! ## 2. Reflexivity and symmetry -/

/-- The first value is the second one, or stands in it at some depth. -/
inductive Occurs (w : Value) : Value → Prop
  | itself : Occurs w w
  | list {items : List Value} {v : Value} (hv : v ∈ items) (h : Occurs w v) : Occurs w (.list items)
  | vector {items : List Value} {v : Value} (hv : v ∈ items) (h : Occurs w v) :
      Occurs w (.vector items)

@[simp] theorem occurs_int {n : Int64} : Occurs w (.int n) ↔ w = .int n :=
  ⟨fun h => by cases h; rfl, fun h => h ▸ .itself⟩

@[simp] theorem occurs_float {x : Float} : Occurs w (.float x) ↔ w = .float x :=
  ⟨fun h => by cases h; rfl, fun h => h ▸ .itself⟩

@[simp] theorem occurs_list : Occurs w (.list items) ↔ w = .list items ∨ ∃ v ∈ items, Occurs w v := by
  constructor
  · intro h
    cases h with
    | itself => exact .inl rfl
    | list hv h => exact .inr ⟨_, hv, h⟩
  · rintro (rfl | ⟨v, hv, h⟩)
    · exact .itself
    · exact .list hv h

@[simp] theorem occurs_vector :
    Occurs w (.vector items) ↔ w = .vector items ∨ ∃ v ∈ items, Occurs w v := by
  constructor
  · intro h
    cases h with
    | itself => exact .inl rfl
    | vector hv h => exact .inr ⟨_, hv, h⟩
  · rintro (rfl | ⟨v, hv, h⟩)
    · exact .itself
    · exact .vector hv h

@[simp] theorem occurs_object {o : HostObject} : Occurs w (.object o) ↔ w = .object o :=
  ⟨fun h => by cases h; rfl, fun h => h ▸ .itself⟩

/-- Neither not-a-number nor an object of the host stands in the value at any depth. -/
structure Plain (v : Value) : Prop where
  isNaN_eq : ∀ x, Occurs (.float x) v → x.isNaN = false
  not_object : ∀ o, ¬ Occurs (.object o) v

theorem Plain.item (h : Plain v) (hitems : v = .list items ∨ v = .vector items) (hw : w ∈ items) :
    Plain w := by
  rcases hitems with rfl | rfl
  · exact ⟨fun x hx => h.isNaN_eq x (.list hw hx), fun o ho => h.not_object o (.list hw ho)⟩
  · exact ⟨fun x hx => h.isNaN_eq x (.vector hw hx), fun o ho => h.not_object o (.vector hw ho)⟩

theorem Plain.equals_self (h : Plain v) : v.equals v = true := by
  induction v using induction_of_nested with
  | h v ih =>
    have hitems : ∀ items, v = .list items ∨ v = .vector items →
        Itemwise items items := by
      intro items hv
      exact List.forall₂_same.mpr fun w hw => ih items hv w hw (h.item hv hw)
    rw [equals_iff]
    cases v with
    | nil => exact .nil
    | bool b => exact .bool b
    | int n => exact .ints n
    | float x => exact .floats (beq_self (h.isNaN_eq x .itself))
    | char c => exact .char c
    | string text => exact .string text
    | symbol name => exact .symbol name
    | keyword name => exact .keyword name
    | list items => exact .list (hitems items (.inl rfl))
    | vector items => exact .vector (hitems items (.inr rfl))
    | rewriter id => exact .rewriter id _ _ _ _ _ _
    | native f => exact .native rfl
    | invokable f => exact .invokable rfl
    | object o => exact absurd .itself (h.not_object o)

/-- The objects of the host in the two values agree on which of them are equal. -/
def SymmetricObjects (a b : Value) : Prop :=
  ∀ o p, Occurs (.object o) a → Occurs (.object p) b →
    o.equals p.toObjectData = p.equals o.toObjectData

theorem SymmetricObjects.symm (h : SymmetricObjects a b) : SymmetricObjects b a :=
  fun o p ho hp => (h p o hp ho).symm

theorem SymmetricObjects.of_list (h : SymmetricObjects (.list as) (.list bs)) (ha : a ∈ as)
    (hb : b ∈ bs) : SymmetricObjects a b :=
  fun o p ho hp => h o p (.list ha ho) (.list hb hp)

theorem SymmetricObjects.of_vector (h : SymmetricObjects (.vector as) (.vector bs)) (ha : a ∈ as)
    (hb : b ∈ bs) : SymmetricObjects a b :=
  fun o p ho hp => h o p (.vector ha ho) (.vector hb hp)

theorem Plain.symmetricObjects (h : Plain a) (b : Value) : SymmetricObjects a b :=
  fun o _ ho => absurd ho (h.not_object o)

theorem Itemwise.symm (h : Itemwise as bs)
    (hitems : ∀ a ∈ as, ∀ b ∈ bs, a.equals b = true → b.equals a = true) : Itemwise bs as := by
  induction h with
  | nil => exact .nil
  | cons hfirst _ ih =>
    simp only [List.forall_mem_cons] at hitems
    exact .cons (hitems.1.1 hfirst) (ih fun a ha => (hitems.2 a ha).2)

theorem equals_symm (h : a.equals b = true) (hobjects : SymmetricObjects a b) :
    b.equals a = true := by
  induction a using induction_of_nested generalizing b with
  | h a ih =>
    rw [equals_iff] at h ⊢
    cases h with
    | floats h => exact .floats (beq_symm h)
    | intFloat h => exact .floatInt h
    | floatInt h => exact .intFloat h
    | @list as bs h =>
      refine .list (Itemwise.symm h fun a ha b hb hab => ?_)
      exact ih as (.inl rfl) a ha hab (hobjects.of_list ha hb)
    | @vector as bs h =>
      refine .vector (Itemwise.symm h fun a ha b hb hab => ?_)
      exact ih as (.inr rfl) a ha hab (hobjects.of_vector ha hb)
    | rewriter id => exact .rewriter id _ _ _ _ _ _
    | native h => exact .native h.symm
    | invokable h => exact .invokable h.symm
    | @object o p h => exact .object (hobjects o p .itself .itself ▸ h)
    | _ => constructor

theorem equals_comm (h : SymmetricObjects a b) : a.equals b = b.equals a :=
  Bool.eq_iff_iff.mpr ⟨fun hab => equals_symm hab h, fun hba => equals_symm hba h.symm⟩

/-! ## 3. Transitivity -/

/-- No double in the second value is equal to an integer in the first and to another in the third. -/
def Unambiguous (a b c : Value) : Prop :=
  ∀ m x n, Occurs (.int m) a → Occurs (.float x) b → Occurs (.int n) c →
    (ofInt64 m == x) = true → (ofInt64 n == x) = true → m = n

theorem Itemwise.trans (h : Itemwise as bs) (h' : Itemwise bs cs)
    (hitems : ∀ a ∈ as, ∀ b ∈ bs, ∀ c ∈ cs, a.equals b = true → b.equals c = true →
      a.equals c = true) : Itemwise as cs := by
  induction h generalizing cs with
  | nil =>
    cases h'
    exact .nil
  | cons hfirst _ ih =>
    cases h' with
    | cons hfirst' hrest' =>
      simp only [List.forall_mem_cons] at hitems
      refine .cons (hitems.1.1.1 hfirst hfirst') (ih hrest' fun a ha b hb c hc => ?_)
      exact ((hitems.2 a ha).2 b hb).2 c hc

theorem equals_trans (hplain : Plain a) (hab : a.equals b = true) (hbc : b.equals c = true)
    (h : Unambiguous a b c) : a.equals c = true := by
  induction a using induction_of_nested generalizing b c with
  | h a ih =>
    rw [equals_iff] at hab hbc ⊢
    cases hab with
    | nil | bool | ints | char | string | symbol | keyword => exact hbc
    | floats hxy =>
      cases hbc with
      | floats hyz => exact .floats (beq_trans hxy hyz)
      | floatInt hny => exact .floatInt (beq_trans hny (beq_symm hxy))
    | intFloat hmx =>
      cases hbc with
      | floats hxy => exact .intFloat (beq_trans hmx hxy)
      | floatInt hnx =>
        -- Two integers are equal to one double: they have to be the same.
        exact h _ _ _ .itself .itself .itself hmx hnx ▸ .ints _
    | floatInt hnx =>
      cases hbc with
      | ints => exact .floatInt hnx
      | intFloat hny => exact .floats (beq_trans (beq_symm hnx) hny)
    | @list as bs hab =>
      cases hbc with
      | @list _ cs hbc =>
        refine .list (Itemwise.trans hab hbc fun a ha b hb c hc hab hbc => ?_)
        exact ih as (.inl rfl) a ha (hplain.item (.inl rfl) ha) hab hbc fun m x n hm hx hn =>
          h m x n (.list ha hm) (.list hb hx) (.list hc hn)
    | @vector as bs hab =>
      cases hbc with
      | @vector _ cs hbc =>
        refine .vector (Itemwise.trans hab hbc fun a ha b hb c hc hab hbc => ?_)
        exact ih as (.inr rfl) a ha (hplain.item (.inr rfl) ha) hab hbc fun m x n hm hx hn =>
          h m x n (.vector ha hm) (.vector hb hx) (.vector hc hn)
    | rewriter id =>
      cases hbc with
      | rewriter => exact .rewriter id _ _ _ _ _ _
    | native hid =>
      cases hbc with
      | native hid' => exact .native (hid.trans hid')
    | invokable hid =>
      cases hbc with
      | invokable hid' => exact .invokable (hid.trans hid')
    | @object o _ _ => exact absurd .itself (hplain.not_object o)

/-! ## 4. Several values -/

def UnambiguousAmong (vs : List Value) : Prop :=
  ∀ a ∈ vs, ∀ b ∈ vs, ∀ c ∈ vs, Unambiguous a b c

theorem UnambiguousAmong.tail (h : UnambiguousAmong (a :: items)) : UnambiguousAmong items :=
  fun b hb c hc d hd => h b (.tail _ hb) c (.tail _ hc) d (.tail _ hd)

theorem equals_of_allEqual (hplain : ∀ v ∈ a :: items, Plain v)
    (h : UnambiguousAmong (a :: items)) (hall : Builtins.allEqual (a :: items) = true) : ∀ b ∈ items, a.equals b = true := by
  induction items generalizing a with
  | nil => exact nofun
  | cons b rest ih =>
    rw [Builtins.allEqual, Bool.and_eq_true] at hall
    refine List.forall_mem_cons.mpr ⟨hall.1, fun c hc => ?_⟩
    have hbc := ih (fun v hv => hplain v (.tail _ hv)) h.tail hall.2 c hc
    exact equals_trans (hplain a (.head _)) hall.1 hbc
      (h a (.head _) b (.tail _ (.head _)) c (.tail _ (.tail _ hc)))

theorem allEqual_of_pairwise (h : ∀ a ∈ items, ∀ b ∈ items, a.equals b = true) :
    Builtins.allEqual items = true := by
  induction items with
  | nil => rfl
  | cons a rest ih =>
    have hrest := ih fun b hb c hc => h b (.tail _ hb) c (.tail _ hc)
    cases rest with
    | nil => rfl
    | cons b rest =>
      rw [Builtins.allEqual, h a (.head _) b (.tail _ (.head _)), hrest]
      rfl

theorem pairwise_of_allEqual (hplain : ∀ v ∈ items, Plain v) (h : UnambiguousAmong items)
    (hall : Builtins.allEqual items = true) : ∀ a ∈ items, ∀ b ∈ items, a.equals b = true := by
  cases items with
  | nil => exact nofun
  | cons first rest =>
    have hfirst : ∀ b ∈ first :: rest, first.equals b = true :=
      List.forall_mem_cons.mpr ⟨(hplain first (.head _)).equals_self, equals_of_allEqual hplain h hall⟩
    intro a ha b hb
    have hback := equals_symm (hfirst a ha) ((hplain first (.head _)).symmetricObjects a)
    exact equals_trans (hplain a ha) hback (hfirst b hb) (h a ha first (.head _) b hb)

/-- No integer that stands in the values at any depth has more than 53 binary digits. -/
def Narrow (vs : List Value) : Prop :=
  ∀ v ∈ vs, ∀ n, Occurs (.int n) v → n.toInt.natAbs ≤ 2 ^ 53

theorem Narrow.unambiguousAmong (h : Narrow items) : UnambiguousAmong items := by
  intro a ha b _ c hc m x n hm _ hn hmx hnx
  exact Number.Binary64.eq_of_ofInt64_beq (h a ha m hm) (h c hc n hn)
    (beq_trans hmx (beq_symm hnx))

/-- Equality of values without not-a-number and objects of the host is reflexive and symmetric.  It is
transitive, and several such values pass `=` just if any two of them are equal, as long as no double
among them is equal to two integers among them; integers of up to 53 binary digits never share one. -/
theorem equals_laws (vs : List Value) (hplain : ∀ v ∈ vs, Plain v) :
    Builtins.Provides "=" (fun args => .ok (.bool (Builtins.allEqual args))) ∧
    (∀ a ∈ vs, a.equals a = true) ∧
    (∀ a ∈ vs, ∀ b ∈ vs, a.equals b = b.equals a) ∧
    (UnambiguousAmong vs →
      (∀ a ∈ vs, ∀ b ∈ vs, ∀ c ∈ vs, a.equals b = true → b.equals c = true → a.equals c = true) ∧
      (Builtins.allEqual vs = true ↔ ∀ a ∈ vs, ∀ b ∈ vs, a.equals b = true)) ∧
    (Narrow vs → UnambiguousAmong vs) := by
  refine ⟨Builtins.provides_of_entry (i := 4) rfl, fun a ha => (hplain a ha).equals_self,
    fun a ha b _ => equals_comm ((hplain a ha).symmetricObjects b), fun h => ⟨fun a ha b hb c hc hab hbc => ?_, ?_⟩,
    Narrow.unambiguousAmong⟩
  · exact equals_trans (hplain a ha) hab hbc (h a ha b hb c hc)
  · exact ⟨pairwise_of_allEqual hplain h, allEqual_of_pairwise⟩

/-- The greatest integer below which all are doubles, and both zeros, at some depth. -/
theorem equals_laws_nested :
    (∀ v ∈ [Value.vector [.int 9007199254740992, .list [.float (-0.0)]],
      .vector [.float 9007199254740992.0, .list [.int 0]]], Plain v) ∧
    Narrow [.vector [.int 9007199254740992, .list [.float (-0.0)]],
      .vector [.float 9007199254740992.0, .list [.int 0]]] ∧
    (Value.vector [.float 9007199254740992.0, .list [.int 0]]).equals
      (.vector [.int 9007199254740992, .list [.float (-0.0)]]) = true := by
  have hplain : ∀ v ∈ [Value.vector [.int 9007199254740992, .list [.float (-0.0)]],
      .vector [.float 9007199254740992.0, .list [.int 0]]], Plain v := by
    intro v hv
    simp only [List.mem_cons, List.not_mem_nil, or_false] at hv
    refine ⟨fun x hx => ?_, fun o ho => ?_⟩
    · obtain rfl | rfl : x = -0.0 ∨ x = 9007199254740992.0 := by
        rcases hv with rfl | rfl <;> simp_all
      · decide
      · decide
    · rcases hv with rfl | rfl <;> simp at ho
  have hnarrow : Narrow [.vector [.int 9007199254740992, .list [.float (-0.0)]],
      .vector [.float 9007199254740992.0, .list [.int 0]]] := by
    intro v hv n hn
    simp only [List.mem_cons, List.not_mem_nil, or_false] at hv
    obtain rfl | rfl : n = 9007199254740992 ∨ n = 0 := by
      rcases hv with rfl | rfl <;> simp_all
    · decide
    · decide
  obtain ⟨-, -, -, hlaws, hunambiguous⟩ := equals_laws _ hplain
  refine ⟨hplain, hnarrow, ?_⟩
  exact (hlaws (hunambiguous hnarrow)).2.mp (by decide +kernel) _ (.tail _ (.head _)) _ (.head _)

/-- Two integers of 54 digits and the double that is nearest to both of them pass `=`, although the
integers differ. -/
theorem allEqual_of_shared_double :
    (∀ v ∈ [Value.int 9007199254740993, .float 9007199254740992.0, .int 9007199254740992], Plain v) ∧
    Builtins.allEqual [.int 9007199254740993, .float 9007199254740992.0, .int 9007199254740992] =
      true ∧
    (Value.int 9007199254740993).equals (.int 9007199254740992) = false := by
  refine ⟨fun v hv => ⟨fun x hx => ?_, fun o ho => ?_⟩, by decide +kernel, by decide +kernel⟩
  · obtain rfl : x = 9007199254740992.0 := by
      simp only [List.mem_cons, List.not_mem_nil, or_false] at hv
      rcases hv with rfl | rfl | rfl
      · simp at hx
      · simpa using hx
      · simp at hx
    decide
  · simp only [List.mem_cons, List.not_mem_nil, or_false] at hv
    rcases hv with rfl | rfl | rfl <;> simp at ho

end Lisp.Value
