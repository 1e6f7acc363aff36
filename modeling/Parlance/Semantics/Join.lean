import Parlance.Formula.Reversal
import Parlance.Formula.Substitution
import Parlance.Semantics.Basic

/-!
# `Semantics.Join` — joining a binary and a unary

A join is the formula `(binary unary)` or, with `betaReduce`, the binary, which must be a lambda, applied
to the unary. The unary fills the second argument of the binary, the first one, or either; for the first
one the binary is reversed.

Two checks stand before a candidate: the types of the two parts have to fit, and the formula that is built
has to be well typed. What happens to one that fails is a matter of the context's policy.

## Contents
- **The function** and its options: `JoinFn`, `ofSexp`, `forwardBetaReduce`, `applying`.
- **Joining.** `join?` for one slot, `apply` for all.
-/

namespace Parlance

/-- The argument of a binary that a unary fills. -/
inductive JoinFn.Slot where
  | arg0
  | arg1
  deriving DecidableEq, Repr

/-- Joins a binary and a unary. -/
structure JoinFn where
  /-- The unary is the first child. -/
  unaryFirst : Bool := false
  canBeArg0 : Bool := false
  canBeArg1 : Bool := false
  betaReduce : Bool := false
  /-- The first child, if it is fixed. -/
  arg0 : Option (Formula × Option SemType) := none
  tree : Sexp

namespace JoinFn

/-! ## The function -/

/-- Takes one option of `(JoinFn option...)` into account. -/
def readOption (join : JoinFn) (option : Sexp) : Except GrammarError JoinFn :=
  match option with
  | .leaf "binary,unary" => .ok { join with unaryFirst := false }
  | .leaf "unary,binary" => .ok { join with unaryFirst := true }
  | .leaf "unaryCanBeArg0" => .ok { join with canBeArg0 := true }
  | .leaf "unaryCanBeArg1" => .ok { join with canBeArg1 := true }
  | .leaf "forward" => .ok { join with unaryFirst := false, canBeArg1 := true }
  | .leaf "backward" => .ok { join with unaryFirst := true, canBeArg1 := true }
  | .leaf "betaReduce" => .ok { join with betaReduce := true }
  | .leaf other => invalidFunction join.tree s!"invalid argument {other}"
  | .list [.leaf "arg0", formula] => do
    let formula ← readPart join.tree (Formula.ofSexp formula)
    return { join with arg0 := some (formula, none) }
  | .list [.leaf "arg0", formula, type] => do
    let formula ← readPart join.tree (Formula.ofSexp formula)
    let type ← readPart join.tree (SemType.ofSexp type)
    return { join with arg0 := some (formula, some type) }
  | .list items => invalidFunction join.tree s!"invalid argument {(Sexp.list items).text}"

/-- Reads `(JoinFn option...)`. -/
def ofSexp (tree : Sexp) : Except GrammarError JoinFn := do
  if tree.head? ≠ some "JoinFn" then invalidFunction tree "expected (JoinFn option...)"
  let join ← (tree.tail 1).foldlM readOption { tree }
  if !join.canBeArg0 && !join.canBeArg1 then
    invalidFunction tree "at least one of unaryCanBeArg0 and unaryCanBeArg1 must be set"
  return join

/-- Application from left to right: the first child, a lambda, is applied to the second one. -/
def forwardBetaReduce : JoinFn where
  canBeArg1 := true
  betaReduce := true
  tree := .form "JoinFn" [.leaf "forward", .leaf "betaReduce"]

/-- Applies a fixed lambda to the only child. -/
def applying (body : Formula) : JoinFn where
  canBeArg1 := true
  betaReduce := true
  arg0 := some (body, none)
  tree := .form "JoinFn"
    [.leaf "betaReduce", .leaf "forward", .form "arg0" [body.toSexp]]

/-! ## Joining -/

/-- A formula with its type. -/
structure Part where
  formula : Formula
  type : SemType

/-- The binary as it takes the unary in a slot. -/
def orient (binary : Part) : Slot → Part
  | .arg0 => ⟨binary.formula.reverseBinary, binary.type.reverse⟩
  | .arg1 => binary

/-- The formula of a join. -/
def build (fn : JoinFn) (binary unary : Formula) : Except SemanticError Formula :=
  if fn.betaReduce then
    match binary.appliedTo? unary with
    | some applied => .ok applied
    | none =>
      .error (.invalid
        s!"expected a lambda as the binary, got {binary.text} (unary is {unary.text})")
  else .ok (.join binary unary)

/-- The candidate for a slot, unless the types rule it out. -/
def join? (fn : JoinFn) (ctx : SemContext) (binary unary : Part) (slot : Slot) :
    Except SemanticError (Option Candidate) := do
  let binary := orient binary slot
  let coarse := ctx.joinCheck.check binary.type unary.type ctx.hierarchy
  match ctx.joinPolicy.admit coarse "joinMismatch" .empty with
  | none => return none
  | some features =>
    let formula ← fn.build binary.formula unary.formula
    let full := ctx.inferType formula
    if full.isValid then return some { formula, type := full, features }
    else
      match ctx.joinPolicy.admit full "joinMismatch" features with
      | none => return none
      | some features => return some { formula, type := coarse, features }

/-- The slots that the unary may fill, in the order in which they are tried. -/
def slots (fn : JoinFn) : List Slot :=
  (if fn.canBeArg0 then [.arg0] else []) ++ (if fn.canBeArg1 then [.arg1] else [])

/-- The binary and the unary among the children. -/
def parts (fn : JoinFn) (ctx : SemContext) (call : Call) : Except SemanticError (Part × Part) := do
  let (a, b) ←
    match fn.arg0 with
    | some (formula, type) => do
      call.expectChildren 1
      let c ← call.child 0
      pure (⟨formula, type.getD (ctx.inferType formula)⟩, ⟨c.formula, c.type⟩)
    | none => do
      call.expectChildren 2
      let c ← call.child 0
      let d ← call.child 1
      pure ((⟨c.formula, c.type⟩ : Part), (⟨d.formula, d.type⟩ : Part))
  return if fn.unaryFirst then (b, a) else (a, b)

/-- The item that a slot contributes to the results. -/
def slotItem (fn : JoinFn) (ctx : SemContext) (binary unary : Part) (slot : Slot) :
    Option (Except SemanticError Candidate) :=
  match fn.join? ctx binary unary slot with
  | .ok none => none
  | .ok (some candidate) => some (.ok candidate)
  | .error e => some (.error e)

/-- The results of the function. -/
def apply (fn : JoinFn) (ctx : SemContext) (call : Call) : Stream Candidate :=
  match fn.parts ctx call with
  | .error e => .error e
  | .ok (binary, unary) => ⟨fn.slots.filterMap (fn.slotItem ctx binary unary), 2⟩

/-- The function as one of a grammar. -/
def toFn (fn : JoinFn) : SemanticFn where
  tree := fn.tree
  bound := fn.arg0.isSome
  apply ctx _ call := fn.apply ctx call

end JoinFn

end Parlance
