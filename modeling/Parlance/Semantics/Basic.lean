import Parlance.Example
import Parlance.Learning.Features
import Parlance.SemType.Lattice
import Parlance.Semantics.Lexicon
import Parlance.Semantics.Stream

/-!
# `Semantics.Basic` — semantic functions and what they work on

A rule's semantic function turns the meanings of the rule's children into candidates for the meaning of
the whole. It sees the children, the span, the example, and a context that all functions share.

## Contents
- **Type checks.** `JoinCheck` and `Policy`.
- **Context and call.** `SemContext`, `Child`, `Call`.
- **Functions.** `Candidate` and `SemanticFn`.
-/

namespace Parlance

/-! ## Type checks -/

/-- How the types of a binary and a unary are compared before they are joined. -/
inductive JoinCheck where
  /-- The binary's type is applied to the unary's. -/
  | apply
  /-- Some atomic member of the unary's type must have the binary's argument type among its supertypes; a
  unary of which nothing is known joins nothing. -/
  | specialized
  deriving DecidableEq, Repr

/-- Whether one of several types is atomic and has the given name among its supertypes. -/
def anyBelow (h : Hierarchy) (name : String) (types : List SemType) : Bool :=
  types.any fun t =>
    match t with
    | .atomic sub => (h.supertypes sub).contains name
    | _ => false

/-- The members of a type that is no function; nothing is known of the members of `top`. -/
def SemType.alternatives? : SemType → Option (List SemType)
  | .atomic name => some [.atomic name]
  | .union ts => some ts
  | _ => none

/-- The type of a binary joined with a unary, as far as their types tell. -/
def JoinCheck.check (how : JoinCheck) (binary unary : SemType) (h : Hierarchy) : SemType :=
  match how, unary with
  | .apply, _ => binary.apply h unary
  | .specialized, .top => .bottom
  | .specialized, _ =>
    match unary.alternatives?, binary.argType h with
    | some ts, .atomic name => if anyBelow h name ts then binary.retType h else .bottom
    | _, _ => binary.apply h unary

/-- What happens to a candidate whose type is not valid. -/
inductive Policy where
  /-- It is dropped. -/
  | hard
  /-- It is kept, marked by a feature. -/
  | soft
  deriving DecidableEq, Repr

/-- The features of a candidate of a given type, if it is kept. -/
def Policy.admit (policy : Policy) (type : SemType) (mark : String) (features : Features Float) :
    Option (Features Float) :=
  if type.isValid then some features
  else
    match policy with
    | .hard => none
    | .soft => some (features.add "typeCheck" mark 1.0)

/-! ## Context and call -/

/-- How numbers are read off an utterance. -/
structure NumberOptions where
  /-- Ordinals and money have no units, and percents are not scaled. -/
  unitless : Bool := false
  /-- A single token that reads as a number is one, whatever its tag. -/
  byConversion : Bool := false
  /-- The bounds, both included, of plain numbers. -/
  range : Option (Float × Float) := none
  deriving Inhabited

/-- What all semantic functions of a parser share. -/
structure SemContext where
  hierarchy : Hierarchy := .standard
  lookup : TypeLookup := .nothing
  lexicon : Lexicon := .empty
  numbers : NumberOptions := {}
  joinCheck : JoinCheck := .apply
  joinPolicy : Policy := .hard
  mergePolicy : Policy := .hard
  deriving Inhabited

/-- The type of a formula without free variables. -/
def SemContext.inferType (ctx : SemContext) (f : Formula) : SemType :=
  Typing.inferType { lookup := ctx.lookup, hierarchy := ctx.hierarchy } f

/-- What a semantic function knows about a child. -/
structure Child where
  cat : String
  first : Nat
  last : Nat
  formula : Formula
  type : SemType
  canonical : String

/-- One application of a semantic function: the span and the children. -/
structure Call where
  first : Nat
  last : Nat
  children : List Child

namespace Call

/-- The child at a position. -/
def child (call : Call) (i : Nat) : Except SemanticError Child :=
  match call.children[i]? with
  | some c => .ok c
  | none => .error (.arity (i + 1) call.children.length)

/-- Demands a number of children. -/
def expectChildren (call : Call) (n : Nat) : Except SemanticError Unit :=
  if call.children.length = n then .ok () else .error (.arity n call.children.length)

/-- The bare text of a child. -/
def childText (call : Call) (i : Nat) : Except SemanticError String := do
  let c ← call.child i
  match c.formula.plain? with
  | some text => return text
  | none => throw (.invalid s!"expected a string, got {c.formula.text}")

/-- A child in an error message. -/
def describeChild (cat : String) (first last : Nat) (formula : Formula) : String :=
  s!"{cat}({first},{last}) {formula.text}"

/-- The children in an error message. -/
def describe (call : Call) : String :=
  ", ".intercalate (call.children.map fun c => describeChild c.cat c.first c.last c.formula)

end Call

/-! ## Functions -/

/-- A meaning that a semantic function proposes. -/
structure Candidate where
  formula : Formula
  type : SemType
  features : Features Float := Table.empty
  /-- The value of the formula, if the function executed it. -/
  value : Option Value := none

/-- A semantic function, with the tree that stands for it in a grammar. -/
structure SemanticFn where
  tree : Sexp
  /-- Whether the function carries its first argument. -/
  bound : Bool := false
  apply : SemContext → Example → Call → Stream Candidate

instance : Inhabited SemanticFn := ⟨⟨.list [], false, fun _ _ _ => .empty⟩⟩

/-- Refuses the tree of a semantic function. -/
def invalidFunction {α : Type} (tree : Sexp) (reason : String) : Except GrammarError α :=
  .error (.invalidFunction tree.text reason)

/-- Reads a part of the tree of a semantic function. -/
def readPart {α : Type} (tree : Sexp) (part : Except ReadError α) : Except GrammarError α :=
  match part with
  | .ok a => .ok a
  | .error cause => invalidFunction tree cause.message

end Parlance
