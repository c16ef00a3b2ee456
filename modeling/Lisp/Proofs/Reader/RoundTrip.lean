import Lisp.Proofs.Number.FloatText
import Lisp.Proofs.Reader.Acceptance

/-!
# Printing and reading back

The printed form of a readable value is a form of the grammar that means the value, in front of
anything that ends a run: `Readable.form`.  So texts of such values in any layout are texts of the
grammar, and reading them gives the values back.
-/

namespace Lisp

namespace Value

/-! ## 1. Printed forms in front of a tail -/

mutual

theorem write_append (v : Value) (tail rest : List Char) :
    v.write tail ++ rest = v.write (tail ++ rest) := by
  cases v with
  | list items =>
    rw [write, write, List.cons_append, writeItems_append items]
    rfl
  | vector items =>
    rw [write, write, List.cons_append, writeItems_append items]
    rfl
  | _ => exact List.append_assoc ..

theorem writeItems_append (items : List Value) (tail rest : List Char) :
    writeItems items tail ++ rest = writeItems items (tail ++ rest) := by
  cases items with
  | nil => rw [writeItems, writeItems]
  | cons v items => rw [writeItems, writeItems, write_append v, writeRest_append items]

theorem writeRest_append (items : List Value) (tail rest : List Char) :
    writeRest items tail ++ rest = writeRest items (tail ++ rest) := by
  cases items with
  | nil => rw [writeRest, writeRest]
  | cons v items =>
    rw [writeRest, writeRest, List.cons_append, write_append v, writeRest_append items]

end

end Value

namespace Reader

namespace Grammar

open Number

/-! ## 2. Readable values -/

def IsRunName (name : String) : Prop := ∀ c ∈ name.toList, isDelimiter c = false

structure IsSymbolName (name : String) : Prop where
  /-- It is not empty. -/
  nonempty : name ≠ ""
  /-- It is a run. -/
  run : IsRunName name
  /-- It does not start like a number. -/
  plain : isNumeric name.toList = false
  /-- It means nothing else. -/
  free : name ∉ ["nil", "true", "false", "##Inf", "##-Inf", "##NaN"]

/-- The values that are made of data only, with names that can be read. -/
inductive Readable : Value → Prop
  | nil : Readable .nil
  | bool (b : Bool) : Readable (.bool b)
  | int (n : Int64) : Readable (.int n)
  | float (x : Float) : Readable (.float x)
  | char (c : Char) : Readable (.char c)
  | string (text : String) : Readable (.string text)
  | symbol {name : String} (readable : IsSymbolName name) : Readable (.symbol name)
  | keyword {name : String} (readable : IsRunName name) : Readable (.keyword name)
  | list {items : List Value} (readable : ∀ v ∈ items, Readable v) : Readable (.list items)
  | vector {items : List Value} (readable : ∀ v ∈ items, Readable v) : Readable (.vector items)

/-! ## 3. Atoms -/

variable {rest : List Char}

theorem form_predefined {run : List Char} {v : Value} (hrest : Delimited rest)
    (hrun : run.all (fun c => !isDelimiter c) = true) (hnonempty : run ≠ [])
    (hplain : isNumeric run = false)
    (hv : standardPredefined.lookup (String.ofList run) = some v) : Form (run ++ rest) v rest := by
  have hinside : ∀ c ∈ run, isDelimiter c = false := by simpa using hrun
  have hform := Form.symbol ⟨hinside, hrest⟩ hnonempty hplain
  rwa [hv] at hform

theorem lookup_eq_none {name : String}
    (hfree : name ∉ ["nil", "true", "false", "##Inf", "##-Inf", "##NaN"]) :
    standardPredefined.lookup name = none := by
  rw [List.lookup_eq_none_iff]
  intro entry hentry
  have hname : entry.1 ∈ standardPredefined.map Prod.fst := List.mem_map_of_mem hentry
  refine bne_iff_ne.mpr ?_
  rintro rfl
  exact hfree hname

theorem form_symbol {name : String} (hname : IsSymbolName name) (hrest : Delimited rest) :
    Form (name.toList ++ rest) (.symbol name) rest := by
  have hform := Form.symbol ⟨hname.run, hrest⟩ (by simpa using hname.nonempty) hname.plain
  rwa [String.ofList_toList, lookup_eq_none hname.free] at hform

theorem form_numeral {body : List Char} {negative : Bool} {v : Value} (hplain : IsPlain body)
    (hfirst : ∃ c tail, body = c :: tail ∧ Text.isDigit c = true) (hrest : Delimited rest)
    (hmeans : numberOfToken (if negative then '-' :: body else body) = .ok v) :
    Form ((if negative then '-' :: body else body) ++ rest) v rest := by
  have hinside : ∀ c ∈ body, isDelimiter c = false := by
    simpa using hplain.forall_mem (fun c => !isDelimiter c) (by decide)
  -- The first digit tells the token from a symbol, also from behind a sign.
  obtain ⟨c, tail, rfl, hc⟩ := hfirst
  refine .number ⟨?_, hrest⟩ ?_ hmeans
  · cases negative with
    | true =>
      intro d hd
      rcases List.mem_cons.mp hd with rfl | hd
      · decide
      · exact hinside d hd
    | false => exact hinside
  · cases negative with
    | true => exact hc
    | false =>
      show isNumeric (c :: tail) = true
      rw [isNumeric_cons, hc]
      rfl

theorem form_int (n : Int64) (hrest : Delimited rest) :
    Form (decimalOfInt64 n ++ rest) (.int n) rest := by
  have hdigits := isDecimal_toDigits n.toInt.natAbs
  rw [decimalOfInt64_eq]
  refine form_numeral hdigits.plain ?_ hrest ?_
  · obtain ⟨c, tail, hcons⟩ := List.exists_cons_of_ne_nil
      (Nat.toDigits_ne_nil (n := n.toInt.natAbs) (b := 10))
    exact ⟨c, tail, hcons, hdigits c (by simp [hcons])⟩
  · rw [← decimalOfInt64_eq, numberOfToken, read_decimalOfInt64]

theorem form_nan {x : Float} (hnan : x.isNaN = true) (hrest : Delimited rest) :
    Form (printedFloat.text x ++ rest) (.float x) rest := by
  have htext : printedFloat.text x = "##NaN".toList := by
    rw [FloatLayout.text, if_pos hnan]
    rfl
  rw [htext]
  refine form_predefined hrest (by decide) (by decide) (by decide) ?_
  rw [Binary64.eq_of_isNaN hnan]
  rfl

theorem form_infinity {x : Float} (hnan : x.isNaN = false) (hinf : x.isInf = true)
    (hrest : Delimited rest) : Form (printedFloat.text x ++ rest) (.float x) rest := by
  have htext : printedFloat.text x =
      (if Binary64.signBit x then "##-Inf" else "##Inf").toList := by
    rw [FloatLayout.text, hnan, hinf]
    rfl
  have hx := Binary64.eq_of_isInf hinf
  rw [htext]
  cases hsign : Binary64.signBit x with
  | true =>
    rw [hsign] at hx
    refine form_predefined hrest (by decide) (by decide) (by decide) ?_
    rw [hx]
    rfl
  | false =>
    rw [hsign] at hx
    refine form_predefined hrest (by decide) (by decide) (by decide) ?_
    rw [hx]
    rfl

theorem form_float (x : Float) (hrest : Delimited rest) :
    Form (printedFloat.text x ++ rest) (.float x) rest := by
  cases hnan : x.isNaN with
  | true => exact form_nan hnan hrest
  | false =>
    cases hinf : x.isInf with
    | true => exact form_infinity hnan hinf hrest
    | false =>
      -- The text is a numeral, so what it reads as is what it denotes.
      have hread := read_text hnan hinf
      obtain ⟨whole, fraction, n, h⟩ := positional_positionalText (FloatLayout.decimalOf x)
      rw [text_eq_positional hnan hinf, h.text_eq] at hread ⊢
      refine form_numeral (h.whole_decimal.plain_point h.fraction_decimal) ?_ hrest ?_
      · obtain ⟨c, tail, rfl⟩ := List.exists_cons_of_ne_nil h.whole_ne
        exact ⟨c, _, rfl, h.whole_decimal c List.mem_cons_self⟩
      · rw [numberOfToken, hread]

/-! ## 4. Characters and strings -/

theorem mem_toDigits {base n : Nat} (hbase : 1 < base) {c : Char}
    (hc : c ∈ Nat.toDigits base n) : ∃ k < base, c = k.digitChar := by
  induction n using Nat.base_induction base hbase with
  | single m hm =>
    rw [Nat.toDigits_of_lt_base hm, List.mem_singleton] at hc
    exact ⟨m, hm, hc⟩
  | digit m k hk hm ih =>
    rw [← Nat.toDigits_append_toDigits hbase hm hk, Nat.toDigits_of_lt_base hk, List.mem_append,
      List.mem_singleton] at hc
    rcases hc with hc | hc
    · exact ih hc
    · exact ⟨k, hk, hc⟩

theorem mem_hexadecimal {width n : Nat} {c : Char} (hc : c ∈ hexadecimal width n) :
    isDelimiter c = false ∧ c ≠ '+' := by
  have hall : ∀ k < 16, isDelimiter k.digitChar = false ∧ k.digitChar ≠ '+' := by decide
  rcases List.mem_append.mp hc with hzero | hdigit
  · rw [List.eq_of_mem_replicate hzero]
    exact hall 0 (by decide)
  · obtain ⟨k, hk, rfl⟩ := mem_toDigits (by decide) hdigit
    exact hall k hk

theorem scalarOfCode_eq {digits : List Char} (hplus : ∀ rest, digits ≠ '+' :: rest) :
    scalarOfCode digits = match natOfDigits 16 digits with
      | some n => if h : n.isValidChar then some (Char.ofNatAux n h) else none
      | none => none := by
  unfold scalarOfCode
  split
  · exact absurd rfl (hplus _)
  · rfl

theorem scalarOfCode_hexadecimal (width : Nat) (c : Char) :
    scalarOfCode (hexadecimal width c.toNat) = some c := by
  have hplus : ∀ digits, hexadecimal width c.toNat ≠ '+' :: digits := by
    intro digits hcons
    have hmem : '+' ∈ hexadecimal width c.toNat := by simp [hcons]
    exact absurd rfl (mem_hexadecimal hmem).2
  have hvalue := natOfDigits_hexadecimal width c.toNat
  generalize hexadecimal width c.toNat = digits at hplus hvalue
  rw [scalarOfCode_eq hplus, hvalue]
  exact dif_pos c.valid

theorem characterName_run {name : String} {c : Char} (h : Text.characterName c = some name) :
    ∃ first run, name.toList = first :: run ∧ (∀ d ∈ run, isDelimiter d = false) ∧
      Names (first :: run) c := by
  simp only [Text.characterName, Option.map_eq_some_iff] at h
  obtain ⟨entry, hfound, rfl⟩ := h
  have hmem := List.mem_of_find?_eq_some hfound
  have hmeant : entry.2 = c := by simpa using List.find?_some hfound
  have hall : ∀ entry ∈ Text.characterNames,
      entry.1.toList ≠ [] ∧ entry.1.toList.all (fun d => !isDelimiter d) = true := by decide
  obtain ⟨hne, hrun⟩ := hall entry hmem
  obtain ⟨first, run, hcons⟩ := List.exists_cons_of_ne_nil hne
  rw [hcons, List.all_cons, Bool.and_eq_true] at hrun
  refine ⟨first, run, hcons, by simpa using hrun.2, .name ?_⟩
  rwa [← hcons, String.ofList_toList, ← hmeant]

theorem form_char (c : Char) (hrest : Delimited rest) :
    Form (Value.charText c ++ rest) (.char c) rest := by
  rw [Value.charText]
  split
  · rename_i name hname
    obtain ⟨first, run, hcons, hrun, hnames⟩ := characterName_run hname
    rw [hcons]
    exact .character ⟨hrun, hrest⟩ hnames
  · split
    · exact .character ⟨fun d hd => (mem_hexadecimal hd).1, hrest⟩
        (.code (scalarOfCode_hexadecimal 4 c))
    · exact @Form.character c c [] rest ⟨by simp, hrest⟩ (.itself c)

theorem stringRest_escaped (text rest : List Char) :
    StringRest (text.flatMap Text.escaped ++ '\x22' :: rest) text rest := by
  induction text with
  | nil => exact .close rest
  | cons c text ih =>
    rw [List.flatMap_cons, List.append_assoc, Text.escaped]
    split
    · rename_i letter hletter
      have hentry : (letter, c) ∈ Text.escapes :=
        unescape_eq_some_iff.mp (Text.unescape_of_escapeLetter hletter)
      exact .escape hentry ih
    · rename_i hnone
      have hne : ∀ d, (Text.escapeLetter d).isSome = true → c ≠ d := by
        rintro d hd rfl
        rw [hnone] at hd
        cases hd
      exact .plain (hne _ (by decide)) (hne _ (by decide)) ih

theorem form_string (text : String) :
    Form (Value.stringText text ++ rest) (.string text) rest := by
  have hbody := stringRest_escaped text.toList rest
  have hform := Form.string hbody
  rw [String.ofList_toList] at hform
  rwa [Value.stringText, List.cons_append, List.append_assoc]

/-! ## 5. Values -/

theorem isDelimiter_of_isBlank {c : Char} (hc : isBlank c = true) : isDelimiter c = true := by
  rw [isDelimiter, hc, Bool.true_or]

theorem Delimited.cons {c : Char} (hc : isDelimiter c = true) (rest : List Char) :
    Delimited (c :: rest) := by
  intro d hd
  obtain rfl : c = d := by simpa using hd
  exact hc

theorem text_writeRest {items : List Value} (hrest : Delimited rest)
    (hforms : ∀ v ∈ items, ∀ rest, Delimited rest → Form (v.write rest) v rest) :
    Text (Value.writeRest items rest) items rest ∧ Delimited (Value.writeRest items rest) := by
  induction items with
  | nil =>
    rw [Value.writeRest]
    exact ⟨.done rest, hrest⟩
  | cons v items ih =>
    -- What follows a value is a blank or what follows them all, so the run of the value ends there.
    obtain ⟨htext, hdelimited⟩ := ih fun w hw => hforms w (List.mem_cons_of_mem v hw)
    rw [Value.writeRest]
    exact ⟨.blank (by decide) (.form (hforms v List.mem_cons_self _ hdelimited) htext),
      .cons (by decide) _⟩

theorem text_writeItems {items : List Value} (hrest : Delimited rest)
    (hforms : ∀ v ∈ items, ∀ rest, Delimited rest → Form (v.write rest) v rest) :
    Text (Value.writeItems items rest) items rest := by
  cases items with
  | nil =>
    rw [Value.writeItems]
    exact .done rest
  | cons v items =>
    obtain ⟨htext, hdelimited⟩ := text_writeRest hrest fun w hw =>
      hforms w (List.mem_cons_of_mem v hw)
    rw [Value.writeItems]
    exact .form (hforms v List.mem_cons_self _ hdelimited) htext

/-- The printed form of a readable value means it, in front of anything that ends a run. -/
theorem Readable.form {v : Value} (h : Readable v) :
    ∀ rest, Delimited rest → Form (v.write rest) v rest := by
  -- Only strings, lists and vectors end by themselves; what stands behind the others has to end them.
  induction h with
  | nil => exact fun rest hrest => form_predefined hrest (by decide) (by decide) (by decide) rfl
  | bool b =>
    intro rest hrest
    cases b with
    | true => exact form_predefined hrest (by decide) (by decide) (by decide) rfl
    | false => exact form_predefined hrest (by decide) (by decide) (by decide) rfl
  | int n => exact fun rest hrest => form_int n hrest
  | float x => exact fun rest hrest => form_float x hrest
  | char c => exact fun rest hrest => form_char c hrest
  | string text => exact fun rest _ => form_string text
  | symbol hname => exact fun rest hrest => form_symbol hname hrest
  | keyword hname =>
    intro rest hrest
    have hform := Form.keyword ⟨hname, hrest⟩
    rwa [String.ofList_toList] at hform
  | list _ ih =>
    intro rest _
    rw [Value.write]
    exact .list (text_writeItems (.cons (by decide) rest) ih)
  | vector _ ih =>
    intro rest _
    rw [Value.write]
    exact .vector (text_writeItems (.cons (by decide) rest) ih)

/-! ## 6. Layouts -/

/-- What may stand between two values: blanks, and comments that end with their line. -/
inductive Separator : List Char → Prop
  | empty : Separator []
  | blank {c : Char} {more : List Char} (blank : isBlank c = true) (separator : Separator more) :
      Separator (c :: more)
  | comment {body more : List Char} (oneLine : '\n' ∉ body) (separator : Separator more) :
      Separator (';' :: (body ++ '\n' :: more))

/-- The printed forms of values, with a text in front of them and one behind each. -/
def layout (lead : String) : List (Value × String) → String
  | [] => lead
  | (v, separator) :: items => lead ++ (v.sexpr ++ layout separator items)

/-- A layout separates its values: by blanks and comments only, and by something where two meet. -/
structure Separated (lead : String) (items : List (Value × String)) : Prop where
  /-- The text in front separates. -/
  lead : Separator lead.toList
  /-- The text behind each value separates. -/
  behind : ∀ item ∈ items, Separator item.2.toList
  /-- Only the last value may have nothing behind it. -/
  between : ∀ item ∈ items.dropLast, item.2 ≠ ""

theorem Separator.text {separator mid : List Char} {vs : List Value} (h : Separator separator)
    (hmid : Text mid vs rest) : Text (separator ++ mid) vs rest := by
  induction h with
  | empty => exact hmid
  | blank hc _ ih => exact .blank hc ih
  | @comment body more hbody _ ih =>
    have hline : ';' :: (body ++ '\n' :: more) ++ mid = ';' :: (body ++ '\n' :: (more ++ mid)) := by
      simp
    rw [hline]
    exact .comment (.line hbody) ih

theorem Separator.delimited {separator : List Char} (h : Separator separator)
    (hne : separator ≠ []) (rest : List Char) : Delimited (separator ++ rest) := by
  cases h with
  | empty => exact absurd rfl hne
  | blank hc => exact .cons (isDelimiter_of_isBlank hc) _
  | comment => exact .cons (by decide) _

theorem toList_layout_cons (lead separator : String) (v : Value) (items : List (Value × String)) :
    (layout lead ((v, separator) :: items)).toList =
      lead.toList ++ v.write (layout separator items).toList := by
  rw [layout, String.toList_append, String.toList_append, Value.sexpr, String.toList_ofList,
    Value.write_append, List.nil_append]

theorem Separated.tail {lead separator : String} {v : Value} {items : List (Value × String)}
    (h : Separated lead ((v, separator) :: items)) : Separated separator items where
  lead := h.behind _ List.mem_cons_self
  behind := fun item hitem => h.behind item (List.mem_cons_of_mem _ hitem)
  between := by
    intro item hitem
    cases items with
    | nil => cases hitem
    | cons next items =>
      refine h.between item ?_
      rw [List.dropLast_cons_of_ne_nil (List.cons_ne_nil next items)]
      exact List.mem_cons_of_mem _ hitem

theorem Separated.delimited {lead separator : String} {v : Value} {items : List (Value × String)}
    (h : Separated lead ((v, separator) :: items)) :
    Delimited (layout separator items).toList := by
  have hseparator : Separator separator.toList := h.behind _ List.mem_cons_self
  cases items with
  | nil =>
    rw [layout]
    cases hempty : separator.toList with
    | nil =>
      intro c hc
      cases hc
    | cons c more =>
      -- The end of the text stands behind this separator.
      have hdelimited := hseparator.delimited (by simp [hempty]) []
      rwa [List.append_nil, hempty] at hdelimited
  | cons next items =>
    have hne : separator ≠ "" := h.between (v, separator) List.mem_cons_self
    rw [toList_layout_cons]
    exact hseparator.delimited (by simpa using hne) _

theorem Separated.text {lead : String} {items : List (Value × String)} (h : Separated lead items)
    (hreadable : ∀ item ∈ items, Readable item.1) :
    Text (layout lead items).toList (items.map Prod.fst) [] := by
  induction items generalizing lead with
  | nil =>
    have htext := h.lead.text (.done [])
    rwa [List.append_nil] at htext
  | cons item items ih =>
    obtain ⟨v, separator⟩ := item
    have hmore := ih h.tail fun item hitem => hreadable item (List.mem_cons_of_mem _ hitem)
    have hv : Readable v := hreadable _ List.mem_cons_self
    rw [toList_layout_cons]
    exact h.lead.text (.form (hv.form _ h.delimited) hmore)

end Grammar

open Grammar

/-- Printed values read back as they are, in any layout and with any comments. -/
theorem readAllText_layout {lead : String} {items : List (Value × String)}
    (hseparated : Separated lead items) (hreadable : ∀ item ∈ items, Readable item.1) :
    readAllText (layout lead items) = .ok (items.map Prod.fst) :=
  readAllText_eq_ok_iff.mpr (hseparated.text hreadable)

/-- A list, a comment that touches it, and a keyword with an empty name. -/
theorem readAllText_layout_touching :
    readAllText " (-5 [\\space \"a\\\"b\"] 0.1);x\n:" =
      .ok [.list [.int (-5), .vector [.char ' ', .string "a\"b"],
        .float (Float.ofBits 0x3fb999999999999a)], .keyword ""] := by
  have htext : layout " " [(.list [.int (-5), .vector [.char ' ', .string "a\"b"],
      .float (Float.ofBits 0x3fb999999999999a)], ";x\n"), (.keyword "", "")] =
      " (-5 [\\space \"a\\\"b\"] 0.1);x\n:" := by decide +kernel
  rw [← htext]
  refine readAllText_layout ⟨?_, ?_, ?_⟩ ?_
  · exact .blank (by decide) .empty
  · have hcomment : Separator ";x\n".toList := @Separator.comment ['x'] [] (by decide) .empty
    simpa using ⟨hcomment, Separator.empty⟩
  · simp
  · have hvector : Readable (.vector [.char ' ', .string "a\"b"]) :=
      .vector (by simpa using ⟨Readable.char ' ', Readable.string "a\"b"⟩)
    have hlist : Readable (.list [.int (-5), .vector [.char ' ', .string "a\"b"],
        .float (Float.ofBits 0x3fb999999999999a)]) :=
      .list (by simpa using ⟨Readable.int (-5), hvector, Readable.float _⟩)
    have hkeyword : Readable (.keyword "") := .keyword (by simp [IsRunName])
    simpa using ⟨hlist, hkeyword⟩

end Reader

end Lisp
