import Lisp.Proofs.Reader.Grammar

/-!
# Items of a text

A text is read item by item: a form, a comment, or the end, each behind blanks.  What the first
character of a form settles about it, and how a text goes on behind its first item, is said here of
the grammar alone.
-/

namespace Lisp.Reader.Grammar

variable {input mid rest : List Char}

/-! ## 1. Items -/

/-- What stands at the front of a text behind its blanks, in the terms of a reading step. -/
def Item (input : List Char) : Found → List Char → Prop
  | .form v, rest => Form (input.dropWhile isBlank) v rest
  | .nothing, rest => Comment (input.dropWhile isBlank) rest
  | .ending, rest => input.dropWhile isBlank = [] ∧ rest = []

theorem Blanks.dropWhile (h : Blanks input mid) :
    input.dropWhile isBlank = mid.dropWhile isBlank := by
  obtain ⟨blanks, hblanks, rfl⟩ := h
  exact List.dropWhile_append_of_pos hblanks

theorem blanks_dropWhile (input : List Char) : Blanks input (input.dropWhile isBlank) := by
  refine ⟨input.takeWhile isBlank, fun c hc => ?_, List.takeWhile_append_dropWhile.symm⟩
  exact List.all_eq_true.mp (List.all_takeWhile (p := isBlank) (l := input)) c hc

theorem quoteOperator_spec {q : Char} {operator : String} (h : quoteOperator q = some operator) :
    isBlank q = false ∧ q ∉ [';', ')', ']'] ∧ isDelimiter q = true := by
  unfold quoteOperator at h
  split at h
  · decide
  · decide
  · decide
  · cases h

theorem Form.starts {v : Value} (h : Form input v rest) :
    ∃ c tail, input = c :: tail ∧ isBlank c = false ∧ c ∉ [';', ')', ']'] := by
  -- A run holds no delimiter, and these characters are delimiters.
  have hrun : ∀ {run rest : List Char}, Run run rest → run ≠ [] →
      ∃ c tail, run ++ rest = c :: tail ∧ isBlank c = false ∧ c ∉ [';', ')', ']'] := by
    intro run rest whole nonempty
    obtain ⟨c, tail, rfl⟩ := List.exists_cons_of_ne_nil nonempty
    have hc := whole.inside c List.mem_cons_self
    rw [isDelimiter, Bool.or_eq_false_iff] at hc
    refine ⟨c, tail ++ rest, rfl, hc.1, fun hmem => ?_⟩
    have hall : [';', ')', ']'].all dispatching.contains = true := by decide
    rw [List.all_eq_true.mp hall c hmem] at hc
    cases hc.2
  cases h with
  | number whole numeric _ =>
    refine hrun whole ?_
    rintro rfl
    cases numeric
  | symbol whole nonempty _ => exact hrun whole nonempty
  | quote quotes _ _ =>
    obtain ⟨hblank, hother, -⟩ := quoteOperator_spec quotes
    exact ⟨_, _, rfl, hblank, hother⟩
  | _ => exact ⟨_, _, rfl, by decide, by decide⟩

theorem Form.dropWhile {v : Value} (h : Form input v rest) :
    input.dropWhile isBlank = input := by
  obtain ⟨c, tail, rfl, hc, -⟩ := h.starts
  exact List.dropWhile_cons_of_neg (by simp [hc])

theorem Comment.starts (h : Comment input rest) : ∃ tail, input = ';' :: tail := by
  cases h with
  | line => exact ⟨_, rfl⟩
  | last => exact ⟨_, rfl⟩

theorem Comment.dropWhile (h : Comment input rest) : input.dropWhile isBlank = input := by
  obtain ⟨tail, rfl⟩ := h.starts
  exact List.dropWhile_cons_of_neg (by decide)

theorem item_cons {c : Char} {found : Found} (hc : isBlank c = true) :
    Item (c :: input) found rest ↔ Item input found rest := by
  cases found <;> simp only [Item, List.dropWhile_cons_of_pos hc]

theorem Form.item {v : Value} (h : Form input v rest) : Item input (.form v) rest := by
  rwa [Item, h.dropWhile]

theorem Comment.item (h : Comment input rest) : Item input .nothing rest := by
  rwa [Item, h.dropWhile]

theorem Comment.length_lt (h : Comment input rest) : rest.length < input.length := by
  cases h <;> simp only [List.length_cons, List.length_append, List.length_nil] <;> omega

theorem StringRest.length_lt {text : List Char} (h : StringRest input text rest) :
    rest.length < input.length := by
  induction h <;> simp only [List.length_cons] at * <;> omega

theorem Form.length_lt {v : Value} (h : Form input v rest) : rest.length < input.length := by
  -- A text inside of a form may be empty, so it is only not longer than what it leaves.
  induction h using Form.rec (motive_2 := fun input _ rest _ => rest.length ≤ input.length) with
  | number whole numeric =>
    rename_i run rest v means
    have hrun : 0 < run.length := by
      cases run with
      | nil => cases numeric
      | cons => exact Nat.succ_pos _
    rw [List.length_append]
    omega
  | symbol whole nonempty =>
    have hrun := List.length_pos_iff.mpr nonempty
    rw [List.length_append]
    omega
  | string body =>
    have hbody := body.length_lt
    rw [List.length_cons]
    omega
  | quote quotes blanks quoted ih =>
    obtain ⟨gap, -, rfl⟩ := blanks
    simp only [List.length_cons, List.length_append]
    omega
  | comment comment more ih =>
    have hcomment := comment.length_lt
    omega
  | done => exact Nat.le_refl _
  | form first more ihfirst ihmore => omega
  | blank hc more ih => exact Nat.le_succ_of_le ih
  | list items ih | vector items ih =>
    simp only [List.length_cons] at *
    omega
  | keyword | character =>
    simp only [List.length_cons, List.length_append]
    omega

theorem Item.length_lt {found : Found} (h : Item input found rest) (hfound : found ≠ .ending) :
    rest.length < input.length := by
  have hdrop : (input.dropWhile isBlank).length ≤ input.length :=
    (List.dropWhile_sublist isBlank).length_le
  cases found with
  | form v => exact Nat.lt_of_lt_of_le (Form.length_lt h) hdrop
  | nothing => exact Nat.lt_of_lt_of_le (Comment.length_lt h) hdrop
  | ending => exact absurd rfl hfound

/-! ## 2. Texts by their first item -/

theorem Text.of_dropWhile {vs : List Value} (h : Text (input.dropWhile isBlank) vs rest) :
    Text input vs rest := by
  induction input with
  | nil => exact h
  | cons c input ih =>
    by_cases hc : isBlank c = true
    · rw [List.dropWhile_cons_of_pos hc] at h
      exact .blank hc (ih h)
    · rwa [List.dropWhile_cons_of_neg hc] at h

theorem text_iff {vs : List Value} (hrest : rest.dropWhile isBlank = rest) :
    Text input vs rest ↔
      (input.dropWhile isBlank = rest ∧ vs = []) ∨
      (∃ mid v ws, Item input (.form v) mid ∧ Text mid ws rest ∧ vs = v :: ws) ∨
      (∃ mid, Item input .nothing mid ∧ Text mid vs rest) := by
  constructor
  · intro h
    induction h with
    | done => exact .inl ⟨hrest, rfl⟩
    | blank hc _ ih =>
      simpa only [List.dropWhile_cons_of_pos hc, item_cons hc] using ih hrest
    | comment comment more => exact .inr (.inr ⟨_, comment.item, more⟩)
    | form first more => exact .inr (.inl ⟨_, _, _, first.item, more, rfl⟩)
  · rintro (⟨hdrop, rfl⟩ | ⟨mid, v, ws, hitem, hmore, rfl⟩ | ⟨mid, hitem, hmore⟩)
    · exact Text.of_dropWhile (hdrop ▸ .done _)
    · exact Text.of_dropWhile (.form hitem hmore)
    · exact Text.of_dropWhile (.comment hitem hmore)

/-! ## 3. Forms by their first character -/

theorem Run.of_cons {c : Char} {run rest : List Char} (whole : Run run rest) (nonempty : run ≠ [])
    (h : c :: input = run ++ rest) :
    isDelimiter c = false ∧ ∃ tail, run = c :: tail ∧ Run tail rest ∧ input = tail ++ rest := by
  obtain ⟨d, tail, rfl⟩ := List.exists_cons_of_ne_nil nonempty
  obtain ⟨rfl, rfl⟩ := List.cons.inj h
  exact ⟨whole.inside c List.mem_cons_self, tail, rfl,
    ⟨fun d hd => whole.inside d (List.mem_cons_of_mem c hd), whole.ends⟩, rfl⟩

theorem isDelimiter_of_mem_dispatching {c : Char} (h : c ∈ dispatching) :
    isDelimiter c = true := by
  rw [isDelimiter, List.contains_iff_mem.mpr h, Bool.or_true]

theorem Form.of_dispatching {c : Char} {v : Value} (hc : c ∈ dispatching)
    (h : Form (c :: input) v rest) :
    (c = '\x22' ∧ ∃ text, StringRest input text rest ∧ v = .string (String.ofList text)) ∨
    (c = ':' ∧ ∃ run, Run run rest ∧ input = run ++ rest ∧ v = .keyword (String.ofList run)) ∨
    (c = '\x5c' ∧ ∃ first run ch, Run run rest ∧ input = first :: (run ++ rest) ∧
      Names (first :: run) ch ∧ v = .char ch) ∨
    (∃ operator w, quoteOperator c = some operator ∧ Item input (.form w) rest ∧
      v = .list [.symbol operator, w]) ∨
    (c = '(' ∧ ∃ vs, Text input vs (')' :: rest) ∧ v = .list vs) ∨
    (c = '[' ∧ ∃ vs, Text input vs (']' :: rest) ∧ v = .vector vs) := by
  have hdelimiter := isDelimiter_of_mem_dispatching hc
  -- Numbers and symbols are runs, which no delimiter starts.
  generalize htext : c :: input = text at h
  cases h with
  | number whole numeric =>
    have hrun := (whole.of_cons (by rintro rfl; cases numeric) htext).1
    rw [hdelimiter] at hrun
    cases hrun
  | symbol whole nonempty =>
    have hrun := (whole.of_cons nonempty htext).1
    rw [hdelimiter] at hrun
    cases hrun
  | string body =>
    obtain ⟨rfl, rfl⟩ := List.cons.inj htext
    exact .inl ⟨rfl, _, body, rfl⟩
  | keyword whole =>
    obtain ⟨rfl, rfl⟩ := List.cons.inj htext
    exact .inr (.inl ⟨rfl, _, whole, rfl, rfl⟩)
  | character whole means =>
    obtain ⟨rfl, rfl⟩ := List.cons.inj htext
    exact .inr (.inr (.inl ⟨rfl, _, _, _, whole, rfl, means, rfl⟩))
  | quote quotes blanks quoted =>
    obtain ⟨rfl, rfl⟩ := List.cons.inj htext
    refine .inr (.inr (.inr (.inl ⟨_, _, quotes, ?_, rfl⟩)))
    rwa [Item, blanks.dropWhile, quoted.dropWhile]
  | list items =>
    obtain ⟨rfl, rfl⟩ := List.cons.inj htext
    exact .inr (.inr (.inr (.inr (.inl ⟨rfl, _, items, rfl⟩))))
  | vector items =>
    obtain ⟨rfl, rfl⟩ := List.cons.inj htext
    exact .inr (.inr (.inr (.inr (.inr ⟨rfl, _, items, rfl⟩))))

theorem form_string_iff {v : Value} :
    Form ('\x22' :: input) v rest ↔
      ∃ text, StringRest input text rest ∧ v = .string (String.ofList text) := by
  constructor
  · intro h
    simpa [quoteOperator] using h.of_dispatching (by decide)
  · rintro ⟨text, hbody, rfl⟩
    exact .string hbody

theorem form_keyword_iff {v : Value} :
    Form (':' :: input) v rest ↔
      ∃ run, Run run rest ∧ input = run ++ rest ∧ v = .keyword (String.ofList run) := by
  constructor
  · intro h
    simpa [quoteOperator] using h.of_dispatching (by decide)
  · rintro ⟨run, hrun, rfl, rfl⟩
    exact .keyword hrun

theorem form_character_iff {v : Value} :
    Form ('\x5c' :: input) v rest ↔
      ∃ first run c, Run run rest ∧ input = first :: (run ++ rest) ∧ Names (first :: run) c ∧
        v = .char c := by
  constructor
  · intro h
    simpa [quoteOperator] using h.of_dispatching (by decide)
  · rintro ⟨first, run, c, hrun, rfl, hmeans, rfl⟩
    exact .character hrun hmeans

theorem form_list_iff {v : Value} :
    Form ('(' :: input) v rest ↔ ∃ vs, Text input vs (')' :: rest) ∧ v = .list vs := by
  constructor
  · intro h
    simpa [quoteOperator] using h.of_dispatching (by decide)
  · rintro ⟨vs, hitems, rfl⟩
    exact .list hitems

theorem form_vector_iff {v : Value} :
    Form ('[' :: input) v rest ↔ ∃ vs, Text input vs (']' :: rest) ∧ v = .vector vs := by
  constructor
  · intro h
    simpa [quoteOperator] using h.of_dispatching (by decide)
  · rintro ⟨vs, hitems, rfl⟩
    exact .vector hitems

theorem form_quote_iff {q : Char} {operator : String} {v : Value}
    (hq : quoteOperator q = some operator) :
    Form (q :: input) v rest ↔
      ∃ w, Item input (.form w) rest ∧ v = .list [.symbol operator, w] := by
  constructor
  · intro h
    unfold quoteOperator at hq
    split at hq
    · cases hq
      simpa [quoteOperator] using h.of_dispatching (by decide)
    · cases hq
      simpa [quoteOperator] using h.of_dispatching (by decide)
    · cases hq
      simpa [quoteOperator] using h.of_dispatching (by decide)
    · cases hq
  · rintro ⟨w, hitem, rfl⟩
    exact .quote hq (blanks_dropWhile input) hitem

theorem form_run_iff {c : Char} {v : Value} (hc : isDelimiter c = false) :
    Form (c :: input) v rest ↔
      ∃ run, Run run rest ∧ input = run ++ rest ∧
        if isNumeric (c :: run) then numberOfToken (c :: run) = .ok v
        else v = (standardPredefined.lookup (String.ofList (c :: run))).getD
          (.symbol (String.ofList (c :: run))) := by
  constructor
  · intro h
    -- All other forms start with a delimiter.
    have hother : ∀ d, isDelimiter d = true → c ≠ d := by
      rintro d hd rfl
      rw [hd] at hc
      cases hc
    generalize htext : c :: input = text at h
    cases h with
    | number whole numeric means =>
      obtain ⟨-, tail, rfl, htail, rfl⟩ := whole.of_cons (by rintro rfl; cases numeric) htext
      exact ⟨tail, htail, rfl, by rwa [if_pos numeric]⟩
    | symbol whole nonempty plain =>
      obtain ⟨-, tail, rfl, htail, rfl⟩ := whole.of_cons nonempty htext
      exact ⟨tail, htail, rfl, by simp [plain]⟩
    | quote quotes =>
      exact absurd (List.cons.inj htext).1 (hother _ (quoteOperator_spec quotes).2.2)
    | _ => exact absurd (List.cons.inj htext).1 (hother _ (by decide))
  · rintro ⟨run, hrun, rfl, hmeans⟩
    have hwhole : Run (c :: run) rest :=
      ⟨by simpa [hc] using hrun.inside, hrun.ends⟩
    by_cases hnumeric : isNumeric (c :: run) = true
    · rw [if_pos hnumeric] at hmeans
      exact .number hwhole hnumeric hmeans
    · rw [if_neg hnumeric] at hmeans
      rw [hmeans]
      exact .symbol hwhole (List.cons_ne_nil c run) (by simpa using hnumeric)

/-! ## 4. What stands behind blanks -/

theorem dropWhile_idem (input : List Char) :
    (input.dropWhile isBlank).dropWhile isBlank = input.dropWhile isBlank :=
  ((blanks_dropWhile input).dropWhile).symm

theorem item_dropWhile {found : Found} :
    Item (input.dropWhile isBlank) found rest ↔ Item input found rest := by
  cases found <;> simp only [Item, dropWhile_idem]

theorem not_item_of_closing {close : Char} {found : Found} (hclose : close ∈ [')', ']'])
    (hinput : input.dropWhile isBlank = close :: mid) : ¬ Item input found rest := by
  intro h
  cases found with
  | form v =>
    rw [Item, hinput] at h
    obtain ⟨c, tail, hcons, -, hc⟩ := Form.starts h
    obtain ⟨rfl, -⟩ := List.cons.inj hcons
    exact hc (List.mem_cons_of_mem _ hclose)
  | nothing =>
    rw [Item, hinput] at h
    obtain ⟨tail, hcons⟩ := Comment.starts h
    obtain ⟨rfl, -⟩ := List.cons.inj hcons
    revert hclose
    decide
  | ending =>
    rw [Item, hinput] at h
    cases h.1

theorem not_item_of_end {found : Found} (hinput : input.dropWhile isBlank = [])
    (hfound : found ≠ .ending) : ¬ Item input found rest := by
  intro h
  cases found with
  | form v =>
    rw [Item, hinput] at h
    obtain ⟨c, tail, hcons, -⟩ := Form.starts h
    cases hcons
  | nothing =>
    rw [Item, hinput] at h
    obtain ⟨tail, hcons⟩ := Comment.starts h
    cases hcons
  | ending => exact hfound rfl

/-! ## 5. Texts up to a closing character -/

theorem dropWhile_closing {close : Char} (hclose : close ∈ [')', ']']) (rest : List Char) :
    (close :: rest).dropWhile isBlank = close :: rest := by
  have hall : [')', ']'].all (fun c => !isBlank c) = true := by decide
  exact List.dropWhile_cons_of_neg (by simpa using List.all_eq_true.mp hall close hclose)

theorem not_text_of_end {close : Char} {vs : List Value} (hclose : close ∈ [')', ']'])
    (hinput : input.dropWhile isBlank = []) : ¬ Text input vs (close :: rest) := by
  intro h
  rcases (text_iff (dropWhile_closing hclose rest)).mp h with
    ⟨hdrop, -⟩ | ⟨_, _, _, hitem, -⟩ | ⟨_, hitem, -⟩
  · rw [hinput] at hdrop
    cases hdrop
  · exact not_item_of_end hinput (by simp) hitem
  · exact not_item_of_end hinput (by simp) hitem

theorem text_iff_of_closing {close : Char} {vs : List Value} (hclose : close ∈ [')', ']'])
    (hinput : input.dropWhile isBlank = close :: mid) :
    Text input vs (close :: rest) ↔ vs = [] ∧ rest = mid := by
  constructor
  · intro h
    rcases (text_iff (dropWhile_closing hclose rest)).mp h with
      ⟨hdrop, rfl⟩ | ⟨_, _, _, hitem, -⟩ | ⟨_, hitem, -⟩
    · rw [hinput] at hdrop
      exact ⟨rfl, (List.cons.inj hdrop).2.symm⟩
    · exact absurd hitem (not_item_of_closing hclose hinput)
    · exact absurd hitem (not_item_of_closing hclose hinput)
  · rintro ⟨rfl, rfl⟩
    exact Text.of_dropWhile (hinput ▸ .done _)

theorem text_iff_of_item {c close : Char} {vs : List Value} (hclose : close ∈ [')', ']'])
    (hinput : input.dropWhile isBlank = c :: mid) (hc : c ≠ close) :
    Text input vs (close :: rest) ↔
      (∃ mid v ws, Item input (.form v) mid ∧ Text mid ws (close :: rest) ∧ vs = v :: ws) ∨
      (∃ mid, Item input .nothing mid ∧ Text mid vs (close :: rest)) := by
  rw [text_iff (dropWhile_closing hclose rest), hinput]
  refine or_iff_right ?_
  rintro ⟨hcons, -⟩
  exact hc (List.cons.inj hcons).1

/-! ## 6. The first form of a text -/

/-- The first form of a text behind blanks and comments, if it has one. -/
inductive First : List Char → Option Value → List Char → Prop
  | form {input rest : List Char} {v : Value} (item : Item input (.form v) rest) :
      First input (some v) rest
  | nothing {input mid rest : List Char} {answer : Option Value} (item : Item input .nothing mid)
      (more : First mid answer rest) : First input answer rest
  | ending {input rest : List Char} (item : Item input .ending rest) : First input none rest

theorem First.length_lt {v : Value} (h : First input (some v) rest) :
    rest.length < input.length := by
  generalize hanswer : some v = answer at h
  induction h with
  | form item => exact item.length_lt (by simp)
  | nothing item _ ih => exact Nat.lt_trans (ih hanswer) (item.length_lt (by simp))
  | ending => cases hanswer

theorem First.blank {c : Char} {answer : Option Value} (hc : isBlank c = true)
    (h : First input answer rest) : First (c :: input) answer rest := by
  cases h with
  | form item => exact .form ((item_cons hc).mpr item)
  | nothing item more => exact .nothing ((item_cons hc).mpr item) more
  | ending item => exact .ending ((item_cons hc).mpr item)

theorem First.text {answer : Option Value} {vs : List Value} (h : First input answer rest)
    (hmore : Text rest vs []) : Text input (answer.toList ++ vs) [] := by
  induction h with
  | form item => exact Text.of_dropWhile (.form item hmore)
  | nothing item _ ih => exact Text.of_dropWhile (.comment item (ih hmore))
  | ending item =>
    obtain ⟨hdrop, rfl⟩ := item
    exact Text.of_dropWhile (hdrop ▸ hmore)

theorem text_iff_first {vs : List Value} :
    Text input vs [] ↔
      (First input none [] ∧ vs = []) ∨
      ∃ v mid ws, First input (some v) mid ∧ Text mid ws [] ∧ vs = v :: ws := by
  constructor
  · intro h
    -- The induction is on the derivation, whose end has to be a variable.
    generalize hrest : ([] : List Char) = rest at h
    induction h with
    | done =>
      subst hrest
      exact .inl ⟨.ending ⟨rfl, rfl⟩, rfl⟩
    | blank hc _ ih =>
      rcases ih hrest with ⟨hfirst, rfl⟩ | ⟨v, mid, ws, hfirst, hmore, rfl⟩
      · exact .inl ⟨hfirst.blank hc, rfl⟩
      · exact .inr ⟨v, mid, ws, hfirst.blank hc, hmore, rfl⟩
    | comment comment _ ih =>
      rcases ih hrest with ⟨hfirst, rfl⟩ | ⟨v, mid, ws, hfirst, hmore, rfl⟩
      · exact .inl ⟨.nothing comment.item hfirst, rfl⟩
      · exact .inr ⟨v, mid, ws, .nothing comment.item hfirst, hmore, rfl⟩
    | form first more => exact .inr ⟨_, _, _, .form first.item, hrest ▸ more, rfl⟩
  · rintro (⟨hfirst, rfl⟩ | ⟨v, mid, ws, hfirst, hmore, rfl⟩)
    · exact hfirst.text (.done [])
    · exact hfirst.text hmore

theorem text_cons_iff {v : Value} {vs : List Value} :
    Text input (v :: vs) rest ↔ ∃ mid, First input (some v) mid ∧ Text mid vs rest := by
  constructor
  · intro h
    generalize hvs : v :: vs = ws at h
    induction h with
    | done => cases hvs
    | blank hc _ ih =>
      obtain ⟨mid, hfirst, hmore⟩ := ih hvs
      exact ⟨mid, hfirst.blank hc, hmore⟩
    | comment comment _ ih =>
      obtain ⟨mid, hfirst, hmore⟩ := ih hvs
      exact ⟨mid, .nothing comment.item hfirst, hmore⟩
    | form first more =>
      cases hvs
      exact ⟨_, .form first.item, more⟩
  · rintro ⟨mid, hfirst, hmore⟩
    generalize hanswer : some v = answer at hfirst
    induction hfirst with
    | form item =>
      cases hanswer
      exact Text.of_dropWhile (.form item hmore)
    | nothing item _ ih => exact Text.of_dropWhile (.comment item (ih hmore hanswer))
    | ending => cases hanswer

theorem First.rest_eq (h : First input none rest) : rest = [] := by
  generalize hanswer : none = answer at h
  induction h with
  | form => cases hanswer
  | nothing _ _ ih => exact ih hanswer
  | ending item => exact item.2

end Lisp.Reader.Grammar
