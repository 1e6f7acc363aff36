import Parlance.ReadError

/-!
# `Grammar.Error` — why grammar statements are refused

Each cause names the offending statement, rule or tree.
-/

namespace Parlance

/-- Why a file could not be read. -/
inductive FileError where
  | missing
  | isDirectory
  | notDirectory
  deriving DecidableEq, Repr

/-- The message of a file error, with the system's number for it. -/
def FileError.message : FileError → String
  | missing => "No such file or directory (os error 2)"
  | isDirectory => "Is a directory (os error 21)"
  | notDirectory => "Not a directory (os error 20)"

/-- Why grammar statements are refused. -/
inductive GrammarError where
  | sexp (cause : Sexp.Error)
  | formula (statement : String) (cause : ReadError)
  | unreadable (path : String) (cause : FileError)
  | invalidCommand (statement : String)
  | undefinedMacro (name statement : String)
  | malformed (statement reason : String)
  | noIncludeContext (statement : String)
  | binarize (rule reason : String)
  | unaryCycle (category : String)
  | unknownFunction (name : String)
  | invalidFunction (tree reason : String)
  /-- Files include each other more deeply than they were to be read. -/
  | tooDeep (path : String)
  deriving DecidableEq, Repr

/-- The message of an error. -/
def GrammarError.message : GrammarError → String
  | sexp cause => cause.message
  | formula statement cause => s!"{statement}: {cause.message}"
  | unreadable path cause => s!"couldn't read {path}: {cause.message}"
  | invalidCommand statement => s!"invalid command: {statement}"
  | undefinedMacro name statement => s!"undefined macro {name} in {statement}"
  | malformed statement reason => s!"malformed statement {statement}: {reason}"
  | noIncludeContext statement => s!"include {statement} has no file context to resolve against"
  | binarize rule reason => s!"can't binarize {rule}: {reason}"
  | unaryCycle category => s!"found cycle of unaries involving {category}"
  | unknownFunction name => s!"unknown semantic function {name}"
  | invalidFunction tree reason => s!"invalid semantic function {tree}: {reason}"
  | tooDeep path => s!"includes are nested too deeply at {path}"

end Parlance
