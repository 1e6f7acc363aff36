import Parlance.Semantics.Join
import Parlance.Semantics.Lexical
import Parlance.Semantics.Merge
import Parlance.Semantics.Number
import Parlance.Semantics.Passing

/-!
# `Semantics.Registry` — semantic functions by name

A registry builds a semantic function from a tree with the function's name in front.
-/

namespace Parlance

/-- How the functions of each name are read off a tree. -/
structure Registry where
  readers : Table (Sexp → Except GrammarError SemanticFn)

namespace Registry

/-- The eight functions of the language. -/
def standard : Registry where
  readers := ⟨[
    ("ConstantFn", fun tree => (ConstantFn.ofSexp tree).map ConstantFn.toFn),
    ("IdentityFn", fun tree => (IdentityFn.ofSexp tree).map IdentityFn.toFn),
    ("SelectFn", fun tree => (SelectFn.ofSexp tree).map SelectFn.toFn),
    ("ConcatFn", fun tree => (ConcatFn.ofSexp tree).map ConcatFn.toFn),
    ("NumberFn", fun tree => (NumberFn.ofSexp tree).map NumberFn.toFn),
    ("JoinFn", fun tree => (JoinFn.ofSexp tree).map JoinFn.toFn),
    ("MergeFn", fun tree => (MergeFn.ofSexp tree).map MergeFn.toFn),
    ("SimpleLexiconFn", fun tree => (LexiconFn.ofSexp tree).map LexiconFn.toFn)]⟩

instance : Inhabited Registry := ⟨standard⟩

/-- Adds a function, or replaces the one of the same name. -/
def register (registry : Registry) (name : String) (reader : Sexp → Except GrammarError SemanticFn) :
    Registry :=
  ⟨registry.readers.insert name reader⟩

/-- The semantic function that a tree stands for. -/
def build (registry : Registry) (tree : Sexp) : Except GrammarError SemanticFn :=
  match tree.head? with
  | none => .error (.unknownFunction tree.text)
  | some name =>
    match registry.readers.get? name with
    | none => .error (.unknownFunction name)
    | some reader => reader tree

end Registry

end Parlance
