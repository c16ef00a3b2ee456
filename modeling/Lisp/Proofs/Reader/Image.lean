import Lisp.Proofs.Reader.RoundTrip

/-!
# What the reader produces

Every form that a text means is readable data, `Form.readable`: the names in it are names that the
reader takes for symbols and keywords, also behind quotes and where a literal leaves the range of
numbers.  So printing what was read gives a text that reads as the same forms:
`readAllText_reprinted`.
-/

namespace Lisp.Reader

namespace Grammar

variable {input rest : List Char} {v : Value} {vs : List Value}

/-! ## 1. Atoms -/

theorem readable_of_numberOfToken {token : List Char} (h : numberOfToken token = .ok v) :
    Readable v := by
  unfold numberOfToken at h
  split at h
  · cases h
    exact .int _
  · cases h
    exact .float _
  · cases h

theorem isRunName_of_run {run : List Char} (whole : Run run rest) :
    IsRunName (String.ofList run) := by
  intro c hc
  rw [String.toList_ofList] at hc
  exact whole.inside c hc

theorem readable_of_mem_standardPredefined {name : String} (h : (name, v) ∈ standardPredefined) :
    Readable v := by
  simp only [standardPredefined, List.mem_cons, Prod.mk.injEq, List.not_mem_nil, or_false] at h
  rcases h with ⟨-, rfl⟩ | ⟨-, rfl⟩ | ⟨-, rfl⟩ | ⟨-, rfl⟩ | ⟨-, rfl⟩ | ⟨-, rfl⟩
  · exact .nil
  · exact .bool true
  · exact .bool false
  · exact .float _
  · exact .float _
  · exact .float _

/-- A run that does not start like a number means a predefined value, or a symbol of a name that
means nothing else. -/
theorem readable_of_run {run : List Char} (whole : Run run rest) (nonempty : run ≠ [])
    (plain : isNumeric run = false) :
    Readable ((standardPredefined.lookup (String.ofList run)).getD
      (.symbol (String.ofList run))) := by
  cases hlookup : standardPredefined.lookup (String.ofList run) with
  | some v =>
    obtain ⟨front, back, hsplit, -⟩ := List.lookup_eq_some_iff.mp hlookup
    have hentry : (String.ofList run, v) ∈ standardPredefined := by
      rw [hsplit]
      exact List.mem_append_right front List.mem_cons_self
    exact readable_of_mem_standardPredefined hentry
  | none =>
    refine .symbol ⟨by simpa using nonempty, isRunName_of_run whole, ?_, ?_⟩
    · rwa [String.toList_ofList]
    · -- Each of the names is a key of the table, which the run is not.
      intro hname
      have hkeys : String.ofList run ∈ standardPredefined.map Prod.fst := hname
      obtain ⟨entry, hentry, hkey⟩ := List.mem_map.mp hkeys
      have hother := List.lookup_eq_none_iff.mp hlookup entry hentry
      rw [hkey] at hother
      simp at hother

theorem inside_of_all {run : List Char} (h : run.all (fun c => !isDelimiter c) = true) :
    ∀ c ∈ run, isDelimiter c = false := by
  simpa using h

theorem readable_quoteOperator {q : Char} {operator : String}
    (h : quoteOperator q = some operator) : Readable (.symbol operator) := by
  unfold quoteOperator at h
  split at h
  · cases h
    exact .symbol ⟨by decide, inside_of_all (by decide), by decide, by decide⟩
  · cases h
    exact .symbol ⟨by decide, inside_of_all (by decide), by decide, by decide⟩
  · cases h
    exact .symbol ⟨by decide, inside_of_all (by decide), by decide, by decide⟩
  · cases h

/-! ## 2. Forms -/

theorem readable_list_iff : Readable (.list vs) ↔ ∀ v ∈ vs, Readable v :=
  ⟨fun h => by cases h; assumption, .list⟩

theorem readable_list_cons (hfirst : Readable v) (hmore : Readable (.list vs)) :
    Readable (.list (v :: vs)) :=
  .list (List.forall_mem_cons.mpr ⟨hfirst, readable_list_iff.mp hmore⟩)

theorem Form.readable (h : Form input v rest) : Readable v := by
  -- A text inside of a form is followed through the list of what it means.
  induction h using Form.rec (motive_2 := fun _ vs _ _ => Readable (.list vs)) with
  | number _ _ means => exact readable_of_numberOfToken means
  | symbol whole nonempty plain => exact readable_of_run whole nonempty plain
  | string => exact .string _
  | keyword whole => exact .keyword (isRunName_of_run whole)
  | character => exact .char _
  | quote quotes _ _ ih => exact .list (by simpa using ⟨readable_quoteOperator quotes, ih⟩)
  | list _ ih => exact ih
  | vector _ ih => exact .vector (readable_list_iff.mp ih)
  | done => exact .list (List.forall_mem_nil _)
  | blank _ _ ih | comment _ _ ih => exact ih
  | form _ _ ihfirst ihmore => exact readable_list_cons ihfirst ihmore

theorem Text.readable (h : Text input vs rest) : ∀ v ∈ vs, Readable v := by
  refine readable_list_iff.mp ?_
  induction h with
  | done => exact .list (List.forall_mem_nil _)
  | blank _ _ ih | comment _ _ ih => exact ih
  | form first _ ih => exact readable_list_cons first.readable ih

/-! ## 3. Printed forms in a row -/

theorem toList_intercalate_sexpr (vs : List Value) :
    (" ".intercalate (vs.map Value.sexpr)).toList = Value.writeItems vs [] := by
  match vs with
  | [] => rfl
  | [v] =>
    rw [List.map_singleton, String.intercalate_singleton, Value.sexpr, String.toList_ofList,
      Value.writeItems, Value.writeRest]
  | v :: w :: vs =>
    have hmore := toList_intercalate_sexpr (w :: vs)
    rw [List.map_cons] at hmore
    rw [List.map_cons, List.map_cons, String.intercalate_cons_cons, String.toList_append, hmore,
      String.toList_append, Value.sexpr, String.toList_ofList, List.append_assoc,
      Value.write_append, List.nil_append]
    rfl

end Grammar

open Grammar

/-- Every form that a text is read as is readable data, and the printed forms, one space between
two of them, are read as the same forms again. -/
theorem readAllText_reprinted {text : String} {vs : List Value} (h : readAllText text = .ok vs) :
    (∀ v ∈ vs, Readable v) ∧
      readAllText (" ".intercalate (vs.map Value.sexpr)) = .ok vs := by
  have hreadable := (readAllText_eq_ok_iff.mp h).readable
  refine ⟨hreadable, readAllText_eq_ok_iff.mpr ?_⟩
  rw [toList_intercalate_sexpr]
  exact text_writeItems (fun c hc => by cases hc) fun v hv => (hreadable v hv).form

set_option maxRecDepth 4000 in
/-- A scientific literal that is not a number, behind a quote and in front of a comment. -/
theorem readAllText_reprinted_nan :
    ∃ vs, readAllText "~0e400;" = .ok vs ∧ (∀ v ∈ vs, Readable v) ∧
      readAllText "(unquote ##NaN)" = .ok vs := by
  have hnumber : Form (['0', 'e', '4', '0', '0'] ++ [';'])
      (.float (Float.ofBits 0x7ff8000000000000)) [';'] :=
    .number ⟨inside_of_all (by decide), .cons (by decide) []⟩ (by decide) rfl
  have hread : readAllText "~0e400;" =
      .ok [.list [.symbol "unquote", .float (Float.ofBits 0x7ff8000000000000)]] :=
    readAllText_eq_ok_iff.mpr
      (.form (.quote (q := '~') rfl ⟨[], by simp, rfl⟩ hnumber) (.comment (.last (by simp)) (.done [])))
  obtain ⟨hreadable, hagain⟩ := readAllText_reprinted hread
  have htext : " ".intercalate ([Value.list [.symbol "unquote",
      .float (Float.ofBits 0x7ff8000000000000)]].map Value.sexpr) = "(unquote ##NaN)" := by
    decide +kernel
  rw [htext] at hagain
  exact ⟨_, hread, hreadable, hagain⟩

end Lisp.Reader
