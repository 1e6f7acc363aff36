import Parlance.Sexp.Reader

/-!
# `ReadError` — why a text is no value, formula or type

Each cause quotes the tree that was refused; a text that is not an S-expression to begin with is
refused for the reader's own reason.
-/

namespace Parlance

/-- Why a text is no value, formula or type. -/
inductive ReadError where
  | sexp (cause : Sexp.Error)
  | value (tree : String)
  | formula (why tree : String)
  | type (tree : String)
  deriving DecidableEq, Repr

/-- The message of an error. -/
def ReadError.message : ReadError → String
  | sexp cause => cause.message
  | value tree => s!"invalid value: {tree}"
  | formula why tree => s!"invalid formula: {why}: {tree}"
  | type tree => s!"invalid type: {tree}"

/-- Reads a text as one S-expression and that as something else. -/
def readWith {α : Type} (ofSexp : Sexp → Except ReadError α) (text : String) : Except ReadError α :=
  match Sexp.read text with
  | .ok tree => ofSexp tree
  | .error cause => .error (.sexp cause)

end Parlance
