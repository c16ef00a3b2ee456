import Lisp.Text.Class

/-!
# Escapes

The two tables that characters with a special written form are listed in: the letters that follow
a backslash in a string, and the names of characters in character literals.  Each table is read in
both directions, so reading and printing share it.
-/

namespace Lisp.Text

/-- The escapes of a string: the letter behind the backslash, and the character meant. -/
def escapes : List (Char × Char) :=
  [('\x22', '\x22'), ('\x5c', '\x5c'), ('n', '\n'), ('t', '\t'), ('r', '\r'), ('a', '\x07'),
   ('b', '\x08'), ('v', '\x0b'), ('f', '\x0c')]

def unescape (letter : Char) : Option Char :=
  (escapes.find? (·.1 = letter)).map (·.2)

def escapeLetter (c : Char) : Option Char :=
  (escapes.find? (·.2 = c)).map (·.1)

theorem unescape_of_escapeLetter {c letter : Char} (h : escapeLetter c = some letter) :
    unescape letter = some c := by
  simp only [escapeLetter, Option.map_eq_some_iff] at h
  obtain ⟨entry, found, rfl⟩ := h
  have member := List.mem_of_find?_eq_some found
  have meant : entry.2 = c := by simpa using List.find?_some found
  subst meant
  have all : ∀ e ∈ escapes, unescape e.1 = some e.2 := by decide
  exact all entry member

def escaped (c : Char) : List Char :=
  match escapeLetter c with
  | some letter => ['\x5c', letter]
  | none => [c]

def characterNames : List (String × Char) :=
  [("space", ' '), ("newline", '\n'), ("tab", '\t'), ("return", '\r'), ("backspace", '\x08'),
   ("formfeed", '\x0c')]

def characterNamed (name : String) : Option Char :=
  (characterNames.find? (·.1 = name)).map (·.2)

def characterName (c : Char) : Option String :=
  (characterNames.find? (·.2 = c)).map (·.1)

end Lisp.Text
