import Parlance.Sexp.Basic
import Parlance.Sexp.Token

/-!
# `Sexp.Reader` — S-expressions read off a text

## Contents
- **Errors.** `Sexp.Error` and its `message`, which quotes up to thirty characters.
- **Reading.** `assemble` builds trees from lexemes with a stack of open lists; `readAll` reads every
  expression of a text, `read` the only one.
-/

namespace Parlance.Sexp

/-! ## Errors -/

/-- Why a text is not a sequence of expressions, or not a single one. -/
inductive Error where
  /-- A list is never closed; the text quoted starts at its parenthesis. -/
  | unbalanced (snippet : String)
  /-- A quoted leaf is never closed. -/
  | unterminatedString (snippet : String)
  /-- A parenthesis closes nothing. -/
  | unexpectedClose (snippet : String)
  /-- One expression is wanted and there are `count`. -/
  | notSingle (count : Nat)
  deriving DecidableEq, Repr

/-- The message of an error. -/
def Error.message : Error → String
  | unbalanced snippet => s!"unbalanced parenthesis at `{snippet}`"
  | unterminatedString snippet => s!"unterminated string at `{snippet}`"
  | unexpectedClose snippet => s!"unexpected `)` at `{snippet}`"
  | notSingle count => s!"expected a single expression, got {count}"

/-- The part of a text that a message quotes. -/
def snippet (source : List Char) : String := String.ofList (source.take 30)

/-! ## Reading -/

/-- A list that is still open: the text from its parenthesis on, and the members that the enclosing
list, or the text itself, had before it, last one first. -/
structure Frame where
  source : List Char
  before : List Sexp

/-- Builds the trees of a sequence of lexemes. `pending` holds the lists that are open, innermost first,
and `done` the members read so far of the innermost one, last one first. -/
def assemble : List Token → List Frame → List Sexp → Except Error (List Sexp)
  | [], [], done => .ok done.reverse
  | [], frame :: _, _ => .error (.unbalanced (snippet frame.source))
  | ⟨.opening, source⟩ :: rest, pending, done => assemble rest (⟨source, done⟩ :: pending) []
  | ⟨.closing, source⟩ :: _, [], _ => .error (.unexpectedClose (snippet source))
  | ⟨.closing, _⟩ :: rest, frame :: pending, done =>
    assemble rest pending (list done.reverse :: frame.before)
  | ⟨.leaf text, _⟩ :: rest, pending, done => assemble rest pending (leaf text :: done)
  | ⟨.unterminated, source⟩ :: _, _, _ => .error (.unterminatedString (snippet source))

/-- Every expression of a text. -/
def readAll (text : String) : Except Error (List Sexp) :=
  assemble (Token.all text.toList) [] []

/-- The only expression of a text. -/
def read (text : String) : Except Error Sexp := do
  match ← readAll text with
  | [tree] => return tree
  | trees => throw (.notSingle trees.length)

end Parlance.Sexp
