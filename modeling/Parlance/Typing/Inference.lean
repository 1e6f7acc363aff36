import Parlance.Formula.Text
import Parlance.SemType.Lattice
import Parlance.Typing.Lookup

/-!
# `Typing.Inference` — an upper bound on the type of a formula

Inference pushes an expected type into a formula and gets a narrower one back. Variables start out
unconstrained and are narrowed by each of their uses. As soon as an intermediate type is invalid the
whole formula is ill-typed; its type is then `bottom`.

The bound need not be tight: it serves to rule out combinations that cannot be right.

## Contents
- **Settings and environment.** `Setting`, `Scope`, and the monad `Inference` of a run.
- **Names.** `inferName`.
- **Formulas.** `infer` and `inferType`.
-/

namespace Parlance.Typing

/-! ## Settings and environment -/

/-- What a run of inference goes by. With `freeAllowed`, free variables are unconstrained; without, a
free variable makes the formula ill-typed. -/
structure Setting where
  lookup : TypeLookup
  hierarchy : Hierarchy
  freeAllowed : Bool := false

/-- The bound variables and what is known about their types, innermost first. -/
abbrev Scope := List (String × SemType)

/-- A run of inference changes the scope, and stops at the first invalid type. -/
abbrev Inference := StateT Scope Option

/-- Stops unless the type is valid. -/
def demand (t : SemType) : Inference SemType := if t.isValid then pure t else failure

/-- The type of the innermost binding of a variable. -/
def Scope.find? (x : String) : Scope → Option SemType
  | [] => none
  | (y, t) :: rest => if y == x then some t else Scope.find? x rest

/-- Changes the type of the innermost binding of a variable. -/
def Scope.set (x : String) (t : SemType) : Scope → Scope
  | [] => []
  | (y, u) :: rest => if y == x then (y, t) :: rest else (y, u) :: Scope.set x t rest

/-- Narrows the innermost binding of a variable. -/
def narrow (s : Setting) (x : String) (t : SemType) : Inference SemType := do
  match (← get).find? x with
  | some known =>
    let narrowed := known.meet s.hierarchy t
    modify (Scope.set x narrowed)
    demand narrowed
  | none => if s.freeAllowed then demand t else failure

/-- Runs inference under a new, unconstrained binding. -/
def withVariable (x : String) (body : Inference SemType) : Inference SemType := do
  modify fun scope => (x, .top) :: scope
  let t ← body
  modify List.tail
  return t

/-! ## Names -/

/-- The type of a name, narrowed to the expected type. -/
def inferName (s : Setting) (id : String) (expected : SemType) : Inference SemType :=
  match special? id with
  | some special => demand (expected.meet s.hierarchy special)
  | none =>
    if Relation.isUnary id then
      demand (expected.meet s.hierarchy ((s.lookup.entity? id).getD .entity))
    else
      let property :=
        if Relation.isReversed id then (s.lookup.property? (Relation.reverse id)).map SemType.reverse
        else s.lookup.property? id
      demand (expected.meet s.hierarchy (property.getD .anyAnyFunc))

/-- The type of a value, narrowed to the expected type. -/
def inferValue (s : Setting) (v : Value) (expected : SemType) : Inference SemType :=
  match v with
  | .number _ _ => demand (expected.meet s.hierarchy .number)
  | .string _ => demand (expected.meet s.hierarchy .string)
  | .date _ => demand (expected.meet s.hierarchy .date)
  | .boolean _ => demand (expected.meet s.hierarchy .boolean)
  | .name id _ => inferName s id expected
  | .list _ => demand (expected.meet s.hierarchy .any)
  | .error _ => failure

/-! ## Formulas -/

/-- Whether a relation is one of the four comparators that order their arguments. -/
def isOrdering (relation : Formula) : Bool :=
  match relation.name? with
  | some op => op == "<" || op == ">" || op == "<=" || op == ">="
  | none => false

/-- The type that a formula of the shape `(fb:type.object.type t)` names. -/
def namedType? (relation child : Formula) : Option String :=
  if relation.name? == some Relation.memberOf then child.plain? else none

mutual
/-- The type of a formula, narrowed to the expected type. -/
def infer (s : Setting) : Formula → SemType → Inference SemType
  | .var x, t => narrow s x t
  | .value v, t => inferValue s v t
  | .join relation child, t => do
    match namedType? relation child with
    | some name => demand (t.meet s.hierarchy (.atomic name))
    | none =>
      if isOrdering relation then
        let childType ← infer s child .numberOrDate
        demand (t.meet s.hierarchy childType)
      else
        let relationType ← infer s relation (.func .top t)
        let childType ← infer s child (relationType.argType s.hierarchy)
        let relationType ← infer s relation (.func childType t)
        demand (relationType.retType s.hierarchy)
  | .merge _ left right, t => do
    let t ← demand (t.meet s.hierarchy .any)
    let t ← infer s left t
    infer s right t
  | .mark x body, t => do
    let t ← demand (t.meet s.hierarchy .any)
    withVariable x do
      let bodyType ← infer s body t
      narrow s x bodyType
  | .lambda x body, t =>
    withVariable x do
      let bodyType ← infer s body (t.retType s.hierarchy)
      let varType ← narrow s x (t.argType s.hierarchy)
      return .func varType bodyType
  | .not child, t => do
    let t ← demand (t.meet s.hierarchy .any)
    infer s child t
  | .aggregate mode child, t => do
    let childType ← infer s child .any
    if mode == .count then demand (SemType.number.meet s.hierarchy t)
    else demand ((SemType.numberOrDate.meet s.hierarchy t).meet s.hierarchy childType)
  | .arithmetic _ left right, t => do
    let t ← infer s left t
    let t ← infer s right t
    demand (t.meet s.hierarchy .numberOrDate)
  | .reverse child, t => do
    let reversed ← infer s child t.reverse
    demand reversed.reverse
  | .superlative _ rank count head relation, t => do
    let _ ← infer s rank .number
    let _ ← infer s count .number
    let t ← demand (t.meet s.hierarchy .any)
    let t ← infer s head t
    let relationType ← infer s relation (.func .numberOrDate t)
    infer s head (relationType.retType s.hierarchy)
  | .call function arguments, t =>
    match function.name? with
    | none => return .bottom
    | some name =>
      match signature? name with
      | none => return .any
      | some (argumentTypes, resultType) =>
        if argumentTypes.length ≠ arguments.length then return .bottom
        else do
          inferArguments s arguments argumentTypes
          demand (t.meet s.hierarchy resultType)
/-- Checks each argument against the type that the function expects of it. -/
def inferArguments (s : Setting) : List Formula → List SemType → Inference Unit
  | argument :: rest, t :: types => do
    let _ ← infer s argument t
    inferArguments s rest types
  | _, _ => return ()
end

/-- An upper bound on the type of a formula, `bottom` if it is ill-typed. -/
def inferType (s : Setting) (f : Formula) : SemType :=
  match (infer s f .top).run [] with
  | some (t, _) => t
  | none => .bottom

end Parlance.Typing
