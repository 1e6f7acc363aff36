import Parlance.Sexp.Basic
import Parlance.Text.Blank

/-!
# `Sexp.Printer` — the text of an S-expression

A leaf is written bare unless a reader would take it for something else: the empty text, a text that
starts like a comment, and a text with a blank, a parenthesis or a quote are put in double quotes.
Inside quotes a backslash comes before a quote or a backslash, and line feeds and tabs are written as
letters. The members of a list are one space apart.
-/

namespace Parlance.Sexp

open Text

/-- Whether a reader would not take these characters, written bare, for one leaf. -/
def needsQuotes (text : List Char) : Bool :=
  text.isEmpty || text.head? == some '#' ||
    text.any fun c => isBlank c || c == '(' || c == ')' || c == '"'

/-- A character as it stands inside quotes. -/
def escape (c : Char) : List Char :=
  if c == '"' then ['\\', '"']
  else if c == '\\' then ['\\', '\\']
  else if c == '\n' then ['\\', 'n']
  else if c == '\t' then ['\\', 't']
  else [c]

/-- The characters of a leaf as they are written. -/
def leafChars (text : List Char) : List Char :=
  if needsQuotes text then '"' :: text.flatMap escape ++ ['"'] else text

mutual
/-- The characters of an expression as it is written. -/
def chars : Sexp → List Char
  | leaf text => leafChars text.toList
  | list items => '(' :: charsList items ++ [')']
/-- The characters of expressions one space apart. -/
def charsList : List Sexp → List Char
  | [] => []
  | [item] => chars item
  | item :: rest => chars item ++ ' ' :: charsList rest
end

/-- The text of an expression. -/
def text (tree : Sexp) : String := String.ofList tree.chars

instance : ToString Sexp := ⟨text⟩

end Parlance.Sexp
