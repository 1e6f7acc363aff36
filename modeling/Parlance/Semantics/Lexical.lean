import Parlance.Semantics.Basic

/-!
# `Semantics.Lexical` — looking a phrase up

`(SimpleLexiconFn [(type T)])` looks the text of its child up in the lexicon. Each entry whose type meets
the restriction is a result, with the features of the entry and one for the pair of phrase and formula.
-/

namespace Parlance

/-- Looks a phrase up; the type of an entry must meet the restriction. -/
structure LexiconFn where
  restriction : SemType
  tree : Sexp

namespace LexiconFn

/-- Reads one `(type T)` of `(SimpleLexiconFn [(type T)])`. -/
def readArgument (fn : LexiconFn) (argument : Sexp) : Except GrammarError LexiconFn :=
  match argument with
  | .list [.leaf "type", type] => do
    return { fn with restriction := ← readPart fn.tree (SemType.ofSexp type) }
  | _ => invalidFunction fn.tree s!"invalid argument {argument.text}"

/-- Reads `(SimpleLexiconFn [(type T)])`. -/
def ofSexp (tree : Sexp) : Except GrammarError LexiconFn := do
  if tree.head? ≠ some "SimpleLexiconFn" then
    invalidFunction tree "expected (SimpleLexiconFn [(type T)])"
  (tree.tail 1).foldlM readArgument { restriction := .top, tree }

/-- The candidate of an entry. -/
def candidate (phrase : String) (entry : LexicalEntry) : Candidate where
  formula := entry.formula
  type := entry.type
  features :=
    Features.add
      (entry.features.foldl (fun v (name, value) => Features.add v "basicStats" name value) .empty)
      "lexAlign" s!"{phrase} --- {entry.formula.text}" 1.0

/-- The results of the function. -/
def apply (fn : LexiconFn) (ctx : SemContext) (call : Call) : Stream Candidate :=
  match call.childText 0 with
  | .error e => .error e
  | .ok phrase =>
    let entries := (ctx.lexicon.lookup phrase).filter fun entry =>
      (fn.restriction.meet ctx.hierarchy entry.type).isValid
    .ofList (entries.map (candidate phrase))

/-- The function as one of a grammar. -/
def toFn (fn : LexiconFn) : SemanticFn where
  tree := fn.tree
  apply ctx _ call := fn.apply ctx call

end LexiconFn

end Parlance
