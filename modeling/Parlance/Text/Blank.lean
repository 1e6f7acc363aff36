/-!
# `Text.Blank` — white space, and cutting text at it

White space is the Unicode property `White_Space`: the ASCII blanks, the next-line character, the
no-break space, and the spaces and separators of the general punctuation block.

## Contents
- **The class.** `isBlank`.
- **Cutting.** `words` (maximal blank-free pieces), `trim`, and `lines`.
-/

namespace Parlance.Text

/-! ## The class -/

/-- The intervals of code points with the property `White_Space`. -/
def blankRanges : List (Nat × Nat) := [
  (0x9, 0xd), (0x20, 0x20), (0x85, 0x85), (0xa0, 0xa0), (0x1680, 0x1680), (0x2000, 0x200a),
  (0x2028, 0x2029), (0x202f, 0x202f), (0x205f, 0x205f), (0x3000, 0x3000)]

/-- Whether a code point lies in one of the intervals. -/
def inRanges (ranges : List (Nat × Nat)) (n : Nat) : Bool :=
  ranges.any fun r => r.1 ≤ n && n ≤ r.2

/-- White space. -/
def isBlank (c : Char) : Bool := inRanges blankRanges c.toNat

/-! ## Cutting -/

/-- The maximal blank-free pieces of a text, in order; `piece` is the piece being read. -/
def wordsFrom (piece : List Char) : List Char → List (List Char)
  | [] => if piece.isEmpty then [] else [piece.reverse]
  | c :: rest =>
    if isBlank c then
      if piece.isEmpty then wordsFrom [] rest else piece.reverse :: wordsFrom [] rest
    else wordsFrom (c :: piece) rest

/-- The maximal blank-free pieces of a text, in order. -/
def words (text : String) : List String :=
  (wordsFrom [] text.toList).map String.ofList

/-- A text without the blanks at its two ends. -/
def trim (text : String) : String :=
  String.ofList ((text.toList.dropWhile isBlank).reverse.dropWhile isBlank).reverse

/-- One line of a text, without the carriage return that may end it. -/
def endLine (reversed : List Char) : String :=
  match reversed with
  | '\r' :: rest => String.ofList rest.reverse
  | _ => String.ofList reversed.reverse

/-- The lines after `current`, which holds the characters of the line being read, last one first. -/
def linesFrom (current : List Char) : List Char → List String
  | [] => if current.isEmpty then [] else [String.ofList current.reverse]
  | '\n' :: rest => endLine current :: linesFrom [] rest
  | c :: rest => linesFrom (c :: current) rest

/-- The lines of a text. A line ends at a line feed, or at a carriage return and a line feed; what
follows the last line feed is a line only if it is not empty. -/
def lines (text : String) : List String := linesFrom [] text.toList

end Parlance.Text
