import Parlance.Semantics.Basic

/-!
# `Semantics.Merge` — intersecting and uniting sets

`(MergeFn and)` intersects two unaries and `(MergeFn or)` unites them. A fixed formula may be merged with
the result; then one child is enough.
-/

namespace Parlance

/-- Merges one or two children, and a fixed formula with them. -/
structure MergeFn where
  mode : MergeMode
  formula : Option Formula
  tree : Sexp

namespace MergeFn

/-- Reads `(MergeFn mode [formula])`. -/
def ofSexp (tree : Sexp) : Except GrammarError MergeFn := do
  if tree.head? ≠ some "MergeFn" || !(tree.length == 2 || tree.length == 3) then
    invalidFunction tree "expected (MergeFn mode [formula])"
  let some mode := (tree.childLeaf? 1).bind MergeMode.ofWord
    | invalidFunction tree "mode must be `and` or `or`"
  match tree.child? 2 with
  | none => return { mode, formula := none, tree }
  | some formula => return { mode, formula := some (← readPart tree (Formula.ofSexp formula)), tree }

/-- The merged children and their type. -/
def parts (fn : MergeFn) (ctx : SemContext) (call : Call) :
    Except SemanticError (Formula × SemType) :=
  match call.children with
  | [c] => .ok (c.formula, c.type)
  | [c, d] => .ok (.merge fn.mode c.formula d.formula, c.type.meet ctx.hierarchy d.type)
  | children => .error (.arity 2 children.length)

/-- The results of the function. -/
def apply (fn : MergeFn) (ctx : SemContext) (call : Call) : Stream Candidate :=
  match fn.parts ctx call with
  | .error e => .error e
  | .ok (merged, type) =>
    match ctx.mergePolicy.admit type "mergeMismatch" .empty with
    | none => .empty
    | some features =>
      let formula :=
        match fn.formula with
        | some f => .merge fn.mode f merged
        | none => merged
      .single { formula, type, features }

/-- The function as one of a grammar. -/
def toFn (fn : MergeFn) : SemanticFn where
  tree := fn.tree
  apply ctx _ call := fn.apply ctx call

end MergeFn

end Parlance
