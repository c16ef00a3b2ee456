import Lisp.Proofs.Reader.Items
import Lisp.Proofs.Reader.Literals

/-!
# Steps of reading

One step of reading finds exactly the item at the front of the text, `finds_step`: a form or a comment
behind blanks, or the end.  The step recurses through containers and quotes, so the induction is on its
level; a level is worth a character, and a text shorter than the level leaves steps over.
-/

namespace Lisp.Reader.Grammar

variable {source : String} {input mid rest : List Char}

/-! ## 1. Containers -/

/-- A step of reading that finds exactly the items at the front of texts shorter than the bound. -/
def ExactBelow (bound : Nat) (self : Read Found) : Prop :=
  ∀ s : Stream, s.input.length < bound → Finds self s (Item s.input)

theorem skipBlanks_eq (s : Stream) : skipBlanks s = .ok () s.skipBlanks := rfl

theorem next_nil {s : Stream} (h : s.input = []) : next s = .ok none s := by
  simp only [next, Stream.next, h]

theorem next_cons {s : Stream} {c : Char} (h : s.input = c :: input) :
    next s = .ok (some c) (s.step c) := by
  simp only [next, Stream.next, h]

theorem input_step_cons {s : Stream} {c : Char} (h : s.input = c :: input) :
    (s.step c).input = input := by
  rw [Stream.input_step, h, List.tail_cons]

/-- The forms of a text up to its closing character, behind the forms read so far. -/
def Enclosed (close : Char) (read : List Value) (input : List Char) (vs : List Value)
    (rest : List Char) : Prop :=
  ∃ ws, Text input ws (close :: rest) ∧ vs = read.reverse ++ ws

theorem reverse_cons_append (v : Value) (read ws : List Value) :
    (v :: read).reverse ++ ws = read.reverse ++ v :: ws := by
  rw [List.reverse_cons, List.append_assoc, List.singleton_append]

variable {self : Read Found} {bound loops : Nat} {close : Char} {construct : String}
  {read : List Value} {s : Stream}

def containerAfter (self : Read Found) (close : Char) (construct : String) (loops : Nat)
    (read : List Value) : Found → Read (List Value)
  | .form v => container self close construct loops (v :: read)
  | .nothing => container self close construct loops read
  | .ending => failWith (.unexpectedEnd construct)

theorem container_eq_of_end (h : s.skipBlanks.input = []) :
    container self close construct (loops + 1) read s =
      .error (.error (.fault (.unexpectedEnd construct))) s.skipBlanks :=
  (bind_of_ok (skipBlanks_eq s)).trans (bind_of_ok (next_nil h))

theorem container_eq_of_closing (h : s.skipBlanks.input = close :: input) :
    container self close construct (loops + 1) read s =
      .ok read.reverse (s.skipBlanks.step close) := by
  refine (bind_of_ok (skipBlanks_eq s)).trans ((bind_of_ok (next_cons h)).trans ?_)
  simp only [if_true]
  rfl

theorem container_eq_of_item {c : Char} (h : s.skipBlanks.input = c :: input) (hc : c ≠ close) :
    container self close construct (loops + 1) read s =
      (self >>= containerAfter self close construct loops read) s.skipBlanks.afterPeek := by
  have hpeek : s.skipBlanks.afterPeek = (s.skipBlanks.step c).unread c := by
    simp only [Stream.afterPeek, h]
  refine (bind_of_ok (skipBlanks_eq s)).trans ((bind_of_ok (next_cons h)).trans ?_)
  simp only [if_neg hc]
  rw [hpeek]
  exact bind_of_ok rfl

theorem container_of_end (hinput : s.input.dropWhile isBlank = []) (hclose : close ∈ [')', ']']) :
    Finds (container self close construct (loops + 1) read) s (Enclosed close read s.input) := by
  have hskip : s.skipBlanks.input = [] := (Stream.input_skipBlanks s).trans hinput
  refine (Finds.of_fail (container_eq_of_end hskip)).congr fun vs rest => ⟨False.elim, ?_⟩
  rintro ⟨ws, htext, -⟩
  exact not_text_of_end hclose hinput htext

theorem container_of_closing (hinput : s.input.dropWhile isBlank = close :: input)
    (hclose : close ∈ [')', ']']) :
    Finds (container self close construct (loops + 1) read) s (Enclosed close read s.input) := by
  have hskip : s.skipBlanks.input = close :: input := (Stream.input_skipBlanks s).trans hinput
  refine (Finds.of_ok (container_eq_of_closing hskip)).congr fun vs rest => ?_
  rw [input_step_cons hskip]
  constructor
  · rintro ⟨rfl, rfl⟩
    exact ⟨[], (text_iff_of_closing hclose hinput).mpr ⟨rfl, rfl⟩, (List.append_nil _).symm⟩
  · rintro ⟨ws, htext, rfl⟩
    obtain ⟨rfl, rfl⟩ := (text_iff_of_closing hclose hinput).mp htext
    exact ⟨List.append_nil _, rfl⟩

def EnclosedAfter (close : Char) (read : List Value) :
    Found → List Char → List Value → List Char → Prop
  | .form v, input, vs, rest => Enclosed close (v :: read) input vs rest
  | .nothing, input, vs, rest => Enclosed close read input vs rest
  | .ending, _, _, _ => False

theorem container_of_item {c : Char} (hself : ExactBelow bound self)
    (hinput : s.input.dropWhile isBlank = c :: input) (hclose : close ∈ [')', ']'])
    (hc : c ≠ close) (hbound : s.input.length < bound)
    (hmore : ∀ (read : List Value) (t : Stream), t.input.length < s.input.length →
      Finds (container self close construct loops read) t (Enclosed close read t.input)) :
    Finds (container self close construct (loops + 1) read) s (Enclosed close read s.input) := by
  have hskip : s.skipBlanks.input = c :: input := (Stream.input_skipBlanks s).trans hinput
  -- Looking at the character leaves the text behind the blanks as it was.
  let u := s.skipBlanks.afterPeek
  have hu : u.input = s.input.dropWhile isBlank := by
    rw [Stream.input_afterPeek, Stream.input_skipBlanks]
  have hlength : u.input.length ≤ s.input.length := by
    rw [hu]
    exact (List.dropWhile_sublist isBlank).length_le
  have hact : container self close construct (loops + 1) read s =
      (self >>= containerAfter self close construct loops read) u := container_eq_of_item hskip hc
  have hitems := hself u (by omega)
  refine ((hitems.bind (EnclosedAfter close read) fun found t hfound => ?_).of_eq hact).congr
    fun vs rest => ⟨?_, ?_⟩
  · have hitem := hitems.sound hfound
    cases found with
    | form v =>
      have hshorter := hitem.length_lt (by simp)
      exact hmore (v :: read) t (by omega)
    | nothing =>
      have hshorter := hitem.length_lt (by simp)
      exact hmore read t (by omega)
    | ending => exact Finds.of_fail (e := .fault (.unexpectedEnd construct)) rfl
  · rintro ⟨found, mid, hitem, hfound⟩
    rw [hu, item_dropWhile] at hitem
    cases found with
    | form v =>
      obtain ⟨ws, htext, rfl⟩ := hfound
      exact ⟨v :: ws, (text_iff_of_item hclose hinput hc).mpr
        (.inl ⟨mid, v, ws, hitem, htext, rfl⟩), reverse_cons_append v read ws⟩
    | nothing =>
      obtain ⟨ws, htext, rfl⟩ := hfound
      exact ⟨ws, (text_iff_of_item hclose hinput hc).mpr (.inr ⟨mid, hitem, htext⟩), rfl⟩
    | ending => exact hfound.elim
  · rintro ⟨ws, htext, rfl⟩
    rw [hu]
    rcases (text_iff_of_item hclose hinput hc).mp htext with
      ⟨mid, v, ws, hitem, hrest, rfl⟩ | ⟨mid, hitem, hrest⟩
    · exact ⟨.form v, mid, item_dropWhile.mpr hitem, ws, hrest, (reverse_cons_append v read ws).symm⟩
    · exact ⟨.nothing, mid, item_dropWhile.mpr hitem, ws, hrest, rfl⟩

theorem finds_container (hself : ExactBelow bound self) (hclose : close ∈ [')', ']'])
    (construct : String) (loops : Nat) : ∀ (read : List Value) (s : Stream),
      s.input.length < bound → s.input.length < loops →
      Finds (container self close construct loops read) s (Enclosed close read s.input) := by
  induction loops with
  | zero =>
    intro read s _ hloops
    exact absurd hloops (Nat.not_lt_zero _)
  | succ loops ih =>
    intro read s hbound hloops
    cases hinput : s.input.dropWhile isBlank with
    | nil => exact container_of_end hinput hclose
    | cons c input =>
      by_cases hc : c = close
      · exact container_of_closing (hc ▸ hinput) hclose
      · exact container_of_item hself hinput hclose hc hbound fun read t ht =>
          ih read t (by omega) (by omega)

/-! ## 2. One step -/

/-- What a dispatching step answers: a form, or nothing for a comment. -/
def Answer (input : List Char) : Option Value → List Char → Prop
  | some v, rest => Form input v rest
  | none, rest => Comment input rest

/-- An operation that finds the values of the forms of a text finds its answers, unless it is a
comment. -/
theorem answers_of_finds {act : Read Value} {s : Stream} {c : Char} {means : Value → List Char → Prop}
    (h : Finds act s means) (hc : c ≠ ';')
    (hform : ∀ v rest, means v rest ↔ Form (c :: input) v rest) :
    Finds (some <$> act) s (Answer (c :: input)) := by
  refine h.map.congr fun answer rest => ⟨?_, ?_⟩
  · rintro ⟨v, hv, rfl⟩
    exact (hform v rest).mp hv
  · intro hanswer
    cases answer with
    | some v => exact ⟨v, (hform v rest).mpr hanswer, rfl⟩
    | none =>
      obtain ⟨tail, hcons⟩ := Comment.starts hanswer
      exact absurd (List.cons.inj hcons).1 hc

theorem bind_pure_some {α : Type} (act : Read α) (value : α → Value) :
    (act >>= fun a => pure (some (value a))) = some <$> (value <$> act) := by
  rw [bind_pure_comp, Functor.map_map]

theorem isNumeric_cons (c : Char) (input : List Char) :
    isNumeric (c :: input) =
      (Text.isDigit c || ((c == '+' || c == '-') && input.head?.any Text.isDigit)) := by
  unfold isNumeric
  -- A sign is no digit, so the cases overlap nowhere.
  split
  · rename_i heq
    obtain ⟨rfl, rfl⟩ := List.cons.inj heq
    rfl
  · rename_i heq
    obtain ⟨rfl, rfl⟩ := List.cons.inj heq
    rfl
  · rename_i d tail hplus hminus heq
    obtain ⟨rfl, rfl⟩ := List.cons.inj heq
    cases input with
    | nil => simp
    | cons e tail =>
      have hsign : c ≠ '+' ∧ c ≠ '-' := ⟨fun h => hplus _ _ h rfl, fun h => hminus _ _ h rfl⟩
      simp [hsign]
  · rename_i heq
    cases heq

theorem startsNumber_eq (c : Char) (s : Stream) :
    ∃ t, startsNumber c s = .ok (isNumeric (c :: s.input)) t ∧ t.input = s.input := by
  rw [isNumeric_cons]
  unfold startsNumber
  by_cases hdigit : Text.isDigit c = true
  · exact ⟨s, by simp [hdigit], rfl⟩
  · by_cases hsign : (c = '+' || c = '-') = true
    · exact ⟨s.afterPeek, by simp_all, Stream.input_afterPeek s⟩
    · exact ⟨s, by simp_all, rfl⟩

theorem isDigit_of_isDelimiter {c : Char} (h : isDelimiter c = true) : Text.isDigit c = false := by
  rw [isDelimiter, Bool.or_eq_true, isBlank, Bool.or_eq_true, decide_eq_true_eq] at h
  rcases h with (rfl | hwhite) | hmem
  · decide
  · obtain ⟨range, hrange, hlow, hhigh⟩ := Text.inRanges_iff.mp hwhite
    have hall : ∀ range ∈ Text.whitespaceRanges, range.2 < 0x30 ∨ 0x39 < range.1 := by decide
    have hapart := hall range hrange
    rw [Text.isDigit, Bool.and_eq_false_iff, decide_eq_false_iff_not, decide_eq_false_iff_not]
    omega
  · have hall : dispatching.all (fun c => !Text.isDigit c) = true := by decide
    simpa using List.all_eq_true.mp hall c (List.contains_iff_mem.mp hmem)

theorem not_isNumeric_of_dispatching {c : Char} (hc : c ∈ dispatching) :
    isNumeric (c :: input) = false := by
  have hall : dispatching.all (fun c => !(Text.isDigit c || c == '+' || c == '-')) = true := by
    decide
  have htest := List.all_eq_true.mp hall c hc
  simp only [Bool.not_eq_true', Bool.or_eq_false_iff] at htest
  rw [isNumeric_cons, htest.1.1, htest.1.2, htest.2]
  rfl

theorem isNumeric_append {c : Char} {run rest : List Char} (hrun : Run run rest) :
    isNumeric (c :: (run ++ rest)) = isNumeric (c :: run) := by
  rw [isNumeric_cons, isNumeric_cons]
  cases run with
  | cons => rfl
  | nil =>
    cases rest with
    | nil => rfl
    | cons d rest =>
      have hd := isDigit_of_isDelimiter (hrun.ends d rfl)
      simp [hd]

theorem macroOf_of_not_delimiter {c : Char} (hc : isDelimiter c = false) :
    (Dialect.ofSource source).macroOf c = none := by
  have h := macroOf_isSome source c
  rw [isDelimiter, Bool.or_eq_false_iff] at hc
  rw [hc.2] at h
  simpa using h

theorem finds_run {c : Char} (hc : isDelimiter c = false) (s : Stream) :
    Finds (if isNumeric (c :: s.input) then some <$> number (Dialect.ofSource source) (some c)
      else token (Dialect.ofSource source) (some c) >>= fun text =>
        pure (some ((Dialect.ofSource source).symbolValue (String.ofList text)))) s
      (Answer (c :: s.input)) := by
  have hsemicolon : c ≠ ';' := by
    rintro rfl
    cases hc
  -- The reader decides by the two characters in front, which tell the same about the run alone.
  have hnumeric : ∀ {run rest : List Char}, Run run rest → s.input = run ++ rest →
      isNumeric (c :: s.input) = isNumeric (c :: run) := fun hrun hinput => by
    rw [hinput, isNumeric_append hrun]
  by_cases hnumber : isNumeric (c :: s.input) = true
  · rw [if_pos hnumber]
    refine answers_of_finds (finds_number c s) hsemicolon fun v rest => ?_
    rw [form_run_iff hc]
    refine exists_congr fun run => and_congr_right fun hrun => and_congr_right fun hinput => ?_
    rw [hnumeric hrun hinput] at hnumber
    rw [if_pos hnumber]
  · rw [if_neg hnumber]
    rw [bind_pure_some]
    refine answers_of_finds (finds_token source (some c) s).map hsemicolon fun v rest => ?_
    rw [form_run_iff hc]
    constructor
    · rintro ⟨_, ⟨run, hrun, hinput, rfl⟩, rfl⟩
      rw [hnumeric hrun hinput] at hnumber
      exact ⟨run, hrun, hinput, by rw [if_neg hnumber]; rfl⟩
    · rintro ⟨run, hrun, hinput, hv⟩
      rw [hnumeric hrun hinput] at hnumber
      rw [if_neg hnumber] at hv
      exact ⟨_, ⟨run, hrun, hinput, rfl⟩, hv⟩

def QuotedAnswer (operator : String) : Found → List Char → Option Value → List Char → Prop
  | .form v, input, answer, rest => answer = some (.list [.symbol operator, v]) ∧ rest = input
  | .nothing, _, _, _ => False
  | .ending, _, _, _ => False

theorem finds_quote (source : String) {self : Read Found} {bound : Nat} (hself : ExactBelow bound self) {q : Char}
    {operator : String} (hq : quoteOperator q = some operator) {s : Stream}
    (hs : s.input.length < bound) :
    Finds (ReaderMacro.run (Dialect.ofSource source) self bound q (.quote operator)) s
      (Answer (q :: s.input)) := by
  have hsemicolon : q ≠ ';' := by
    rintro rfl
    cases hq
  -- A quote in front of anything but a form is a fault, and no text with such a quote has a meaning.
  refine ((hself s hs).bind (QuotedAnswer operator) fun found t _ => ?_).congr
    fun answer rest => ⟨?_, ?_⟩
  · cases found with
    | form v => exact Finds.of_ok rfl
    | nothing => exact Finds.of_fail (e := .fault .quotedNothing) rfl
    | ending => exact Finds.of_fail (e := .fault (.unexpectedEnd operator)) rfl
  · rintro ⟨found, mid, hitem, hanswer⟩
    cases found with
    | form v =>
      obtain ⟨rfl, rfl⟩ := hanswer
      exact (form_quote_iff hq).mpr ⟨v, hitem, rfl⟩
    | nothing => exact hanswer.elim
    | ending => exact hanswer.elim
  · intro hanswer
    cases answer with
    | some v =>
      obtain ⟨w, hitem, rfl⟩ := (form_quote_iff hq).mp hanswer
      exact ⟨.form w, rest, hitem, rfl, rfl⟩
    | none =>
      obtain ⟨tail, hcons⟩ := Comment.starts hanswer
      exact absurd (List.cons.inj hcons).1 hsemicolon

theorem finds_comment (source : String) (self : Read Found) (bound : Nat) (s : Stream) :
    Finds (ReaderMacro.run (Dialect.ofSource source) self bound ';' .comment) s
      (Answer (';' :: s.input)) := by
  have hact : ReaderMacro.run (Dialect.ofSource source) self bound ';' .comment s =
      .ok none s.skipLine := rfl
  refine (Finds.of_ok hact).congr fun answer rest => ?_
  rw [Stream.input_skipLine]
  cases answer with
  | some v =>
    refine ⟨fun h => absurd h.1 (by simp), fun h => ?_⟩
    obtain ⟨c, tail, hcons, -, hc⟩ := Form.starts h
    obtain ⟨rfl, -⟩ := List.cons.inj hcons
    exact absurd List.mem_cons_self hc
  | none => exact ⟨fun h => comment_iff.mpr h.2, fun h => ⟨rfl, comment_iff.mp h⟩⟩

theorem finds_unmatched (source : String) (self : Read Found) (bound : Nat) {c : Char} (hc : c ∈ [')', ']'])
    (s : Stream) :
    Finds (ReaderMacro.run (Dialect.ofSource source) self bound c .unmatched) s
      (Answer (c :: s.input)) := by
  have hclosing := dropWhile_closing hc s.input
  refine (Finds.of_fail (e := .fault (.unmatchedDelimiter c)) rfl).congr fun answer rest =>
    ⟨False.elim, fun h => ?_⟩
  cases answer with
  | some v => exact not_item_of_closing hc hclosing (Form.item h)
  | none => exact not_item_of_closing hc hclosing (Comment.item h)

theorem finds_keyword (self : Read Found) (bound : Nat) (s : Stream) :
    Finds (ReaderMacro.run (Dialect.ofSource source) self bound ':' .keyword) s
      (Answer (':' :: s.input)) := by
  have hact : ReaderMacro.run (Dialect.ofSource source) self bound ':' .keyword =
      some <$> ((fun text => Value.keyword (String.ofList text)) <$>
        token (Dialect.ofSource source) none) := bind_pure_some _ _
  rw [hact]
  refine answers_of_finds (finds_token source none s).map (by decide) fun v rest => ?_
  rw [form_keyword_iff]
  constructor
  · rintro ⟨text, ⟨run, hrun, hinput, htext⟩, rfl⟩
    exact ⟨run, hrun, hinput, by rw [htext]; rfl⟩
  · rintro ⟨run, hrun, hinput, rfl⟩
    exact ⟨run, ⟨run, hrun, hinput, rfl⟩, rfl⟩

theorem finds_enclosed {self : Read Found} {bound : Nat} (hself : ExactBelow bound self)
    {c close : Char} (hc : c ≠ ';') (hclose : close ∈ [')', ']']) (construct : String)
    (value : List Value → Value) {s : Stream} (hs : s.input.length < bound)
    (hform : ∀ v rest, Form (c :: s.input) v rest ↔
      ∃ vs, Text s.input vs (close :: rest) ∧ v = value vs) :
    Finds (container self close construct bound [] >>= fun vs => pure (some (value vs))) s
      (Answer (c :: s.input)) := by
  rw [bind_pure_some]
  refine answers_of_finds (finds_container hself hclose construct bound [] s hs hs).map hc
    fun v rest => ?_
  rw [hform]
  constructor
  · rintro ⟨ws, ⟨vs, htext, hws⟩, rfl⟩
    exact ⟨vs, htext, by rw [hws]; rfl⟩
  · rintro ⟨vs, htext, rfl⟩
    exact ⟨vs, ⟨vs, htext, rfl⟩, rfl⟩

/-- A number comes first, then the macro of the character, and then a symbol. -/
theorem dispatch_eq (source : String) (self : Read Found) (bound : Nat) {c : Char} {isNumber : Bool}
    {s t : Stream} (hstart : startsNumber c s = .ok isNumber t) :
    dispatch (Dialect.ofSource source) self bound c s =
      (if isNumber then some <$> number (Dialect.ofSource source) (some c)
        else match (Dialect.ofSource source).macroOf c with
          | some m => m.run (Dialect.ofSource source) self bound c
          | none => token (Dialect.ofSource source) (some c) >>= fun text =>
            pure (some ((Dialect.ofSource source).symbolValue (String.ofList text)))) t :=
  bind_of_ok hstart

theorem finds_dispatch (source : String) {self : Read Found} {bound : Nat} (hself : ExactBelow bound self)
    {c : Char} (hc : isBlank c = false) {s : Stream} (hs : s.input.length < bound) :
    Finds (dispatch (Dialect.ofSource source) self bound c) s (Answer (c :: s.input)) := by
  obtain ⟨t, hstart, ht⟩ := startsNumber_eq c s
  have hdispatch := dispatch_eq source self bound hstart
  rw [← ht] at hs ⊢ hdispatch
  refine Finds.of_eq ?_ hdispatch
  -- Each dispatching character has its macro; any other starts a run.
  by_cases hmem : c ∈ dispatching
  · rw [not_isNumeric_of_dispatching hmem]
    simp only [dispatching, List.mem_cons, List.not_mem_nil, or_false] at hmem
    rcases hmem with rfl | rfl | rfl | rfl | rfl | rfl | rfl | rfl | rfl | rfl | rfl
    · exact answers_of_finds (finds_string t) (by decide) fun v rest => form_string_iff.symm
    · exact finds_comment source self bound t
    · exact finds_keyword self bound t
    · exact answers_of_finds (finds_character t) (by decide) fun v rest => form_character_iff.symm
    · exact finds_quote source hself rfl hs
    · exact finds_quote source hself rfl hs
    · exact finds_quote source hself rfl hs
    · exact finds_enclosed hself (by decide) (by decide) "list" .list hs fun v rest => form_list_iff
    · exact finds_unmatched source self bound (by decide) t
    · exact finds_enclosed hself (by decide) (by decide) "vector" .vector hs
        fun v rest => form_vector_iff
    · exact finds_unmatched source self bound (by decide) t
  · have hdelimiter : isDelimiter c = false := by
      rw [isDelimiter, hc, Bool.false_or]
      simpa using hmem
    rw [macroOf_of_not_delimiter hdelimiter]
    exact finds_run hdelimiter t

def foundOfAnswer : Option Value → Found
  | some v => .form v
  | none => .nothing

theorem step_of_end (source : String) (level : Nat) {s : Stream} (h : s.skipBlanks.input = []) :
    step (Dialect.ofSource source) (level + 1) s = .ok .ending s.skipBlanks := by
  rw [step, withRoom_eq]
  exact (bind_of_ok (skipBlanks_eq s)).trans ((bind_of_ok rfl).trans (bind_of_ok (next_nil h)))

theorem step_of_cons (source : String) (level : Nat) {s : Stream} {c : Char}
    (h : s.skipBlanks.input = c :: input) :
    step (Dialect.ofSource source) (level + 1) s =
      (located ⟨source, s.skipBlanks.line, s.skipBlanks.column + 1⟩
        (dispatch (Dialect.ofSource source) (step (Dialect.ofSource source) level) level c) >>=
          fun answer => pure (foundOfAnswer answer)) (s.skipBlanks.step c) := by
  rw [step, withRoom_eq]
  refine (bind_of_ok (skipBlanks_eq s)).trans ((bind_of_ok rfl).trans ?_)
  refine (bind_of_ok (next_cons h)).trans ((bind_eq _ _ _).trans ?_)
  rw [bind_eq]
  cases located ⟨source, s.skipBlanks.line, s.skipBlanks.column + 1⟩
    (dispatch (Dialect.ofSource source) (step (Dialect.ofSource source) level) level c)
    (s.skipBlanks.step c) with
  | ok answer t => cases answer <;> rfl
  | error stop t => rfl

theorem starts_of_skipBlanks {s : Stream} {c : Char} (h : s.skipBlanks.input = c :: input) :
    s.input.dropWhile isBlank = c :: input ∧ isBlank c = false ∧
      input.length < s.input.length := by
  rw [Stream.input_skipBlanks] at h
  have hhead := List.head?_dropWhile_not isBlank s.input
  have hsublist := (List.dropWhile_sublist isBlank (l := s.input)).length_le
  rw [h] at hhead hsublist
  exact ⟨h, by simpa using hhead, hsublist⟩

/-- One step of reading finds the item at the front of the text. -/
theorem finds_step (source : String) : ∀ level, ExactBelow level (step (Dialect.ofSource source) level)
  | 0, s, hs => absurd hs (Nat.not_lt_zero _)
  | level + 1, s, hs => by
    have hskip := Stream.input_skipBlanks s
    cases hinput : s.skipBlanks.input with
    | nil =>
      rw [hinput] at hskip
      refine (Finds.of_ok (step_of_end source level hinput)).congr fun found rest =>
        ⟨?_, fun hitem => ?_⟩
      · rintro ⟨rfl, rfl⟩
        exact ⟨hskip.symm, hinput⟩
      · by_cases hfound : found = .ending
        · subst hfound
          exact ⟨rfl, hitem.2.trans hinput.symm⟩
        · exact absurd hitem (not_item_of_end hskip.symm hfound)
    | cons c input =>
      -- The text behind the blanks and one character is shorter, so one level less reads it.
      rw [hinput] at hskip
      obtain ⟨-, hc, hshorter⟩ := starts_of_skipBlanks hinput
      have hinner := input_step_cons hinput
      have hlength : (s.skipBlanks.step c).input.length < level := by
        rw [hinner]
        omega
      have hdispatch := (finds_dispatch source (finds_step source level) hc hlength).located
        ⟨source, s.skipBlanks.line, s.skipBlanks.column + 1⟩
      rw [hinner, hskip] at hdispatch
      refine ((hdispatch.bind (fun answer mid found rest => found = foundOfAnswer answer ∧ rest = mid)
        fun answer t _ => Finds.of_ok rfl).of_eq (step_of_cons source level hinput)).congr
          fun found rest => ⟨?_, fun hitem => ?_⟩
      · rintro ⟨answer, mid, hanswer, rfl, rfl⟩
        cases answer with
        | some v => exact hanswer
        | none => exact hanswer
      · cases found with
        | form v => exact ⟨some v, rest, hitem, rfl, rfl⟩
        | nothing => exact ⟨none, rest, hitem, rfl, rfl⟩
        | ending =>
          rw [Item, ← hskip] at hitem
          cases hitem.1

end Lisp.Reader.Grammar
