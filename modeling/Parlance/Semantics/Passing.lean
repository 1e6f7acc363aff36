import Parlance.Semantics.Basic

/-!
# `Semantics.Passing` — constants, children passed through, and children strung together

## Contents
- `ConstantFn`: a fixed formula, whatever the children are.
- `IdentityFn`: the only child.
- `SelectFn`: the child at a position.
- `ConcatFn`: the bare texts of the children with a delimiter between them.
-/

namespace Parlance

/-! ## Constants -/

/-- Produces a fixed formula. A type that is not given is inferred when the function is applied. -/
structure ConstantFn where
  formula : Formula
  type : Option SemType
  tree : Sexp

namespace ConstantFn

/-- The function that produces a formula. -/
def new (formula : Formula) (type : Option SemType) : ConstantFn where
  formula
  type
  tree := .form "ConstantFn" (formula.toSexp :: (type.map SemType.toSexp).toList)

/-- The stand-in for symbols that were left out. -/
def null : ConstantFn := new .null none

/-- Reads `(ConstantFn formula [type])`. -/
def ofSexp (tree : Sexp) : Except GrammarError ConstantFn := do
  let expected := "expected (ConstantFn formula [type])"
  match tree.head? == some "ConstantFn", tree.tail 1 with
  | true, [formula] =>
    return { formula := ← readPart tree (Formula.ofSexp formula), type := none, tree }
  | true, [formula, type] =>
    let formula ← readPart tree (Formula.ofSexp formula)
    let type ← readPart tree (SemType.ofSexp type)
    return { formula, type := some type, tree }
  | _, _ => invalidFunction tree expected

/-- The results of the function. -/
def apply (fn : ConstantFn) (ctx : SemContext) : Stream Candidate :=
  .single { formula := fn.formula, type := fn.type.getD (ctx.inferType fn.formula) }

/-- The function as one of a grammar. -/
def toFn (fn : ConstantFn) : SemanticFn where
  tree := fn.tree
  apply ctx _ _ := fn.apply ctx

end ConstantFn

/-! ## Children passed through -/

/-- The candidate that means what a child means. -/
def Child.pass (c : Child) : Candidate := { formula := c.formula, type := c.type }

/-- Passes the only child through. -/
structure IdentityFn where

namespace IdentityFn

/-- Reads `(IdentityFn)`. -/
def ofSexp (tree : Sexp) : Except GrammarError IdentityFn :=
  if tree.head? == some "IdentityFn" && tree.length == 1 then .ok {}
  else invalidFunction tree "expected (IdentityFn)"

/-- The results of the function. -/
def apply (_ : IdentityFn) (call : Call) : Stream Candidate :=
  .ofExcept do
    call.expectChildren 1
    return (← call.child 0).pass

/-- The function as one of a grammar. -/
def toFn (fn : IdentityFn) : SemanticFn where
  tree := .list [.leaf "IdentityFn"]
  apply _ _ call := fn.apply call

end IdentityFn

/-- Passes the child at a position through. -/
structure SelectFn where
  position : Nat
  deriving DecidableEq, Repr

namespace SelectFn

/-- Reads `(SelectFn position)`. -/
def ofSexp (tree : Sexp) : Except GrammarError SelectFn :=
  if tree.head? == some "SelectFn" && tree.length == 2 then
    match (tree.childLeaf? 1).bind (Decimal.readUnsigned 64) with
    | some position => .ok { position }
    | none => invalidFunction tree "position must be a non-negative integer"
  else invalidFunction tree "expected (SelectFn position)"

/-- The results of the function. -/
def apply (fn : SelectFn) (call : Call) : Stream Candidate :=
  .ofExcept do return (← call.child fn.position).pass

/-- The function as one of a grammar. -/
def toFn (fn : SelectFn) : SemanticFn where
  tree := .form "SelectFn" [.leaf (toString fn.position)]
  apply _ _ call := fn.apply call

end SelectFn

/-! ## Children strung together -/

/-- Strings the bare texts of the children together. -/
structure ConcatFn where
  delimiter : String
  deriving DecidableEq, Repr

namespace ConcatFn

/-- Reads `(ConcatFn delimiter)`. -/
def ofSexp (tree : Sexp) : Except GrammarError ConcatFn :=
  if tree.head? == some "ConcatFn" && tree.length == 2 then
    match tree.childLeaf? 1 with
    | some delimiter => .ok { delimiter }
    | none => invalidFunction tree "delimiter must be a string"
  else invalidFunction tree "expected (ConcatFn delimiter)"

/-- The results of the function. -/
def apply (fn : ConcatFn) (call : Call) : Stream Candidate :=
  .ofExcept do
    let parts ← (List.range call.children.length).mapM call.childText
    return { formula := .ofString (fn.delimiter.intercalate parts), type := .string }

/-- The function as one of a grammar. -/
def toFn (fn : ConcatFn) : SemanticFn where
  tree := .form "ConcatFn" [.leaf fn.delimiter]
  apply _ _ call := fn.apply call

end ConcatFn

end Parlance
