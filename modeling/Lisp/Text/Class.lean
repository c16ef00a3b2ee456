/-!
# Character classes

The classes of characters that the reader and the printer ask about.  Each is a list of closed
ranges of code points, so membership is decided by comparing numbers.

* `isWhitespace`: the Unicode property `White_Space`.
* `isControl`: the Unicode category `Cc`.
* `isDigit`: the ten ASCII digits.
-/

namespace Lisp.Text

/-- Whether a code point lies in one of the closed ranges. -/
def inRanges (ranges : List (Nat × Nat)) (code : Nat) : Bool :=
  ranges.any fun (low, high) => low ≤ code && code ≤ high

theorem inRanges_iff {ranges : List (Nat × Nat)} {code : Nat} :
    inRanges ranges code = true ↔ ∃ r ∈ ranges, r.1 ≤ code ∧ code ≤ r.2 := by
  simp [inRanges]

/-- The 25 characters with the Unicode property `White_Space`. -/
def whitespaceRanges : List (Nat × Nat) :=
  [(0x20, 0x20), (0x09, 0x0d), (0x85, 0x85), (0xa0, 0xa0), (0x1680, 0x1680), (0x2000, 0x200a),
   (0x2028, 0x2029), (0x202f, 0x202f), (0x205f, 0x205f), (0x3000, 0x3000)]

/-- The 65 characters of the Unicode category `Cc`. -/
def controlRanges : List (Nat × Nat) :=
  [(0x00, 0x1f), (0x7f, 0x9f)]

def isWhitespace (c : Char) : Bool :=
  inRanges whitespaceRanges c.toNat

def isControl (c : Char) : Bool :=
  inRanges controlRanges c.toNat

/-- The ASCII digits, the only characters that start a number by themselves. -/
def isDigit (c : Char) : Bool :=
  0x30 ≤ c.toNat && c.toNat ≤ 0x39

def isBlankText (text : String) : Bool :=
  text.toList.all isWhitespace

def trim (text : List Char) : List Char :=
  ((text.dropWhile isWhitespace).reverse.dropWhile isWhitespace).reverse

end Lisp.Text
