import Lisp.Proofs.Reader.Fault

/-!
# Texts line by line

A text that can be read may be put in front of any other, on lines of its own: `readAllText_lines`.
The forms of the second text follow those of the first, and what is wrong with the second text stays
wrong in the same way and at the same column, as many lines below as the first text takes.

A newline ends whatever the end of a text ends: a run, and a comment.  So the forms of the first
text mean the same in front of it (`Form.append`), and no other character is needed between them.
-/

namespace Lisp.Reader

namespace Grammar

variable {input mid rest more : List Char} {v : Value} {vs ws : List Value}

/-! ## 1. Forms in front of more text -/

theorem Delimited.append (h : Delimited rest) (hmore : Delimited more) :
    Delimited (rest ++ more) := by
  cases rest with
  | nil => exact hmore
  | cons c rest => exact h

theorem Run.append {run : List Char} (whole : Run run rest) (hmore : Delimited more) :
    Run run (rest ++ more) := ⟨whole.inside, whole.ends.append hmore⟩

theorem Blanks.append (h : Blanks input mid) (more : List Char) :
    Blanks (input ++ more) (mid ++ more) := by
  obtain ⟨blanks, hblanks, rfl⟩ := h
  exact ⟨blanks, hblanks, List.append_assoc ..⟩

theorem StringRest.append {text : List Char} (h : StringRest input text rest) (more : List Char) :
    StringRest (input ++ more) text (rest ++ more) := by
  induction h with
  | close rest => exact .close _
  | plain noQuote noEscape _ ih => exact .plain noQuote noEscape ih
  | escape meant _ ih => exact .escape meant ih

theorem Text.of_nil (h : Text [] vs rest) : vs = [] ∧ rest = [] := by
  cases h with
  | done => exact ⟨rfl, rfl⟩
  | comment comment =>
    obtain ⟨tail, hcons⟩ := comment.starts
    cases hcons
  | form first =>
    obtain ⟨c, tail, hcons, -⟩ := first.starts
    cases hcons

/-- A form keeps its meaning in front of more text, if that cannot lengthen a run at its end. -/
theorem Form.append (h : Form input v rest) (hmore : Delimited more) :
    Form (input ++ more) v (rest ++ more) := by
  -- A text inside of a form goes on behind its comments, so they end with their lines.
  induction h using Form.rec (motive_2 := fun input vs rest _ =>
    rest ≠ [] → Text (input ++ more) vs (rest ++ more)) with
  | number whole numeric means =>
    rw [List.append_assoc]
    exact .number (whole.append hmore) numeric means
  | symbol whole nonempty plain =>
    rw [List.append_assoc]
    exact .symbol (whole.append hmore) nonempty plain
  | string body => exact .string (body.append more)
  | keyword whole =>
    rw [List.cons_append, List.append_assoc]
    exact .keyword (whole.append hmore)
  | character whole means =>
    rw [List.cons_append, List.cons_append, List.append_assoc]
    exact .character (whole.append hmore) means
  | quote quotes blanks _ ih => exact .quote quotes (blanks.append more) ih
  | list _ ih => exact .list (ih (List.cons_ne_nil _ _))
  | vector _ ih => exact .vector (ih (List.cons_ne_nil _ _))
  | done => exact .done _
  | blank hc _ ih hrest => exact .blank hc (ih hrest)
  | comment comment text ih hrest =>
    cases comment with
    | line oneLine =>
      rw [List.cons_append, List.append_assoc, List.cons_append]
      exact .comment (.line oneLine) (ih hrest)
    | last => exact absurd (Text.of_nil text).2 hrest
  | form _ _ ihfirst ihmore hrest => exact .form ihfirst (ihmore hrest)

theorem Text.append_newline (h : Text input vs []) (hmore : Text more ws rest) :
    Text (input ++ '\n' :: more) (vs ++ ws) rest := by
  have hnewline : Delimited ('\n' :: more) := by
    intro c hc
    cases hc
    decide
  generalize hend : ([] : List Char) = last at h
  induction h with
  | done =>
    subst hend
    exact .blank (by decide) hmore
  | blank hc _ ih => exact .blank hc (ih hend)
  | comment comment text ih =>
    cases comment with
    | line oneLine =>
      rw [List.cons_append, List.append_assoc, List.cons_append]
      exact .comment (.line oneLine) (ih hend)
    | last oneLine =>
      -- The comment that the text ended takes the newline.
      obtain ⟨rfl, -⟩ := Text.of_nil text
      exact .comment (.line oneLine) hmore
  | form first _ ih => exact .form (first.append hnewline) (ih hend)

theorem TextFault.append_newline {q : List Char} {fault : ReadFault} (h : Text input vs [])
    (hfault : TextFault more q fault) : TextFault (input ++ '\n' :: more) q fault := by
  obtain ⟨ws, mid, htext, hat⟩ := hfault
  exact ⟨vs ++ ws, mid, h.append_newline htext, hat⟩

end Grammar

/-! ## 2. Places behind more lines -/

theorem columnsBehind_append_newline (before behind : List Char) :
    columnsBehind (before ++ '\n' :: behind) = columnsBehind behind := by
  induction behind using List.reverseRecOn with
  | nil => rw [columnsBehind_append, if_pos rfl]; rfl
  | append_singleton behind c ih =>
    have hlast : before ++ '\n' :: (behind ++ [c]) = (before ++ '\n' :: behind) ++ [c] := by simp
    rw [hlast, columnsBehind_append, columnsBehind_append, ih]

/-- Behind a text and a newline a place is as many lines below as the text takes. -/
theorem placeBehind_append_newline (source : String) (before behind : List Char) :
    placeBehind source (before ++ '\n' :: behind) =
      ⟨source, (placeBehind source behind).line + 1 + before.count '\n',
        (placeBehind source behind).column⟩ := by
  have hcount : (before ++ '\n' :: behind).count '\n' =
      before.count '\n' + (behind.count '\n' + 1) := by
    rw [List.count_append, List.count_cons_self]
  unfold placeBehind
  rw [columnsBehind_append_newline, hcount]
  simp only [Position.mk.injEq, true_and, and_true]
  omega

/-! ## 3. Texts -/

theorem toList_append_newline (a b : String) :
    (a ++ "\n" ++ b).toList = a.toList ++ '\n' :: b.toList := by
  rw [String.toList_append, String.toList_append, List.append_assoc]
  rfl

theorem readAllText_eq_error_iff {text : String} {stop : Stop} :
    readAllText text = .error stop ↔
      ∃ p q fault, text.toList = p ++ q ∧ Grammar.TextFault text.toList q fault ∧
        stop = .error (.read fault (some (placeBehind Dialect.standard.source p))) := by
  have hfails := Grammar.fails_readAll Dialect.standard.source text.toList
  refine ofText_eq_error_iff.trans ⟨?_, ?_⟩
  · rintro ⟨t, ht⟩
    obtain ⟨e, rfl⟩ := (Grammar.finds_readAll _ (.ofText text.toList)).total ht
    obtain ⟨_, fault, ⟨q, rfl, hfault⟩, hsuffix, rfl⟩ := hfails.sound ht
    obtain ⟨p, hsplit⟩ := hsuffix q rfl
    exact ⟨p, q, fault, hsplit.symm, hfault, by rw [Option.map_some, ← hsplit, placeOf_append]⟩
  · rintro ⟨p, q, fault, hsplit, hfault, rfl⟩
    obtain ⟨t, ht⟩ := hfails.complete ⟨q, rfl, hfault⟩
    rw [Option.map_some, hsplit, placeOf_append, ← hsplit] at ht
    exact ⟨t, ht⟩

/-- A text that can be read, a newline and another text are read line by line: as the forms of both,
or else with the error of the other text, below the lines of the first. -/
theorem readAllText_lines {a b : String} {vs : List Value} (ha : readAllText a = .ok vs) :
    (∀ ws, readAllText b = .ok ws → readAllText (a ++ "\n" ++ b) = .ok (vs ++ ws)) ∧
    (∀ stop, readAllText b = .error stop → ∃ fault source line column,
      stop = .error (.read fault (some ⟨source, line, column⟩)) ∧
      readAllText (a ++ "\n" ++ b) = .error (.error (.read fault
        (some ⟨source, line + 1 + a.toList.count '\n', column⟩)))) := by
  have htext := readAllText_eq_ok_iff.mp ha
  refine ⟨fun ws hb => ?_, fun stop hb => ?_⟩
  · rw [readAllText_eq_ok_iff, toList_append_newline]
    exact htext.append_newline (readAllText_eq_ok_iff.mp hb)
  · obtain ⟨p, q, fault, hsplit, hfault, rfl⟩ := readAllText_eq_error_iff.mp hb
    refine ⟨fault, _, _, _, rfl, readAllText_eq_error_iff.mpr ?_⟩
    refine ⟨a.toList ++ '\n' :: p, q, fault, ?_, ?_, ?_⟩
    · rw [toList_append_newline, hsplit, List.append_assoc, List.cons_append]
    · rw [toList_append_newline]
      exact hfault.append_newline htext
    · rw [placeBehind_append_newline]
      rfl

/-- Behind an open comment, a sign and a bare colon: a digit, which goes on with neither, and a
closing character on the second line. -/
theorem readAllText_lines_sign :
    readAllText ("; x\n: +" ++ "\n" ++ "1") = .ok [.keyword "", .symbol "+", .int 1] ∧
      readAllText ("; x\n: +" ++ "\n" ++ "1;\n )") =
        .error (.error (.read (.unmatchedDelimiter ')') (some ⟨"<string>", 4, 2⟩))) := by
  have ha : readAllText "; x\n: +" = .ok [.keyword "", .symbol "+"] := by cbv
  refine ⟨(readAllText_lines ha).1 [.int 1] (by cbv), ?_⟩
  have hb : readAllText "1;\n )" =
      .error (.error (.read (.unmatchedDelimiter ')') (some ⟨"<string>", 2, 2⟩))) := by cbv
  obtain ⟨fault, source, line, column, hstop, herror⟩ := (readAllText_lines ha).2 _ hb
  cases hstop
  exact herror

end Lisp.Reader
