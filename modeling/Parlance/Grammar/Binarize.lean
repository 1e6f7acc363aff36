import Parlance.Rule
import Parlance.Semantics.Join

/-!
# `Grammar.Binarize` — rules with at most two symbols each

A rule with a long right-hand side becomes a cascade of rules that take two symbols each: the first two
symbols make up a fresh category, which is paired with the third symbol, and so on. A pair with an optional
symbol gives one rule for each way to leave optional symbols out.

Only the required categories are arguments of the rule's semantic function. The first pair of two of them
applies it, and so does every pair after it that adds another one. All other pairs pass the argument on that
they have, or a null value if they have none. A function that carries its first argument takes only
the first required category; to the result, the other ones are applied from left to right.

## Contents
- **Fresh categories.** `freshCat`.
- **Pairs.** `Slot`, `pairFn`, `pairRules`.
- **Rules.** `pairUp`, `Rule.cascade`, `Rule.binarize`.
-/

namespace Parlance

/-! ## Fresh categories -/

/-- The fresh category with a number. -/
def freshCat (n : Nat) : String := s!"$Intermediate{n}"

/-! ## Pairs -/

/-- A symbol of a right-hand side. -/
structure Slot where
  symbol : String
  optional : Bool
  /-- Whether it carries an argument of the semantic function. -/
  required : Bool
  deriving Inhabited, DecidableEq, Repr

namespace Slot

/-- The slot of a symbol, which is an argument if it is a category that may not be left out. -/
def ofSymbol (symbol : String) (optional : Bool) : Slot where
  symbol
  optional
  required := isCat symbol && !optional

/-- Whether the symbol is there, in each way to choose. -/
def presences (slot : Slot) : List Bool := if slot.optional then [false, true] else [true]

/-- The symbol, if it is there. -/
def shown (slot : Slot) (present : Bool) : List String := if present then [slot.symbol] else []

/-- The slot of a category that stands for a pair. -/
def join (cat : String) (left right : Slot) : Slot where
  symbol := cat
  optional := left.optional && right.optional
  required := left.required || right.required

end Slot

/-- The semantic function of a pair, given whether its left member is there. -/
def pairFn (sem : SemanticFn) (left right : Slot) (hasLeft : Bool) : SemanticFn :=
  if left.required && right.required then sem
  else if hasLeft && isCat left.symbol && right.required then (SelectFn.mk 1).toFn
  else if left.required || right.required then (SelectFn.mk 0).toFn
  else ConstantFn.null.toFn

namespace Rule

/-- A rule made out of another one, with the same properties and source. -/
def derive (rule : Rule) (lhs : String) (rhs : List String) (sem : SemanticFn) : Rule :=
  { rule with lhs, rhs, sem }

/-- The rules of a pair, one for each way to leave optional members out but not all of them. -/
def pairRules (rule : Rule) (lhs : String) (left right : Slot) : List Rule :=
  left.presences.flatMap fun hasLeft =>
    right.presences.filterMap fun hasRight =>
      let rhs := left.shown hasLeft ++ right.shown hasRight
      if rhs.isEmpty then none
      else some (rule.derive lhs rhs (pairFn rule.sem left right hasLeft))

/-! ## Rules -/

/-- Pairs a slot with the next ones from left to right. `applied` tells whether the semantic function was
applied, and `fresh` how many fresh categories were handed out. A function that was not applied in any pair
is applied to what the pairs make. -/
def pairUp (rule : Rule) (left : Slot) (applied : Bool) (fresh : Nat) : List Slot → List Rule × Nat
  | [] => (if applied then [] else [rule.derive rule.lhs [left.symbol] rule.sem], fresh)
  | right :: rest =>
    let applied := applied || (left.required && right.required)
    let atEnd := rest.isEmpty && applied
    let lhs := if atEnd then rule.lhs else freshCat (fresh + 1)
    let (rules, fresh) :=
      pairUp rule (.join lhs left right) applied (if atEnd then fresh else fresh + 1) rest
    (rule.pairRules lhs left right ++ rules, fresh)

/-- The cascade of a rule with the given slots; with fewer than two of them the rule stays as it is. -/
def cascade (rule : Rule) (slots : List Slot) (fresh : Nat) : List Rule × Nat :=
  match slots with
  | first :: second :: rest => rule.pairUp first false fresh (second :: rest)
  | _ => ([rule], fresh)

/-- Refuses to binarize a rule. -/
def refuse {α : Type} (rule : Rule) (optionals : List Bool) (reason : String) :
    Except GrammarError α :=
  let marks := ", ".intercalate (optionals.map fun b => if b then "true" else "false")
  .error (.binarize s!"{rule.text} [{marks}]" reason)

/-- The slots before the first required one, that one, and the slots after it, if one of these is required
as well. -/
def splitArguments? (slots : List Slot) : Option (List Slot × Slot × List Slot) :=
  match slots.span fun slot => !slot.required with
  | (before, first :: after) => if after.any Slot.required then some (before, first, after) else none
  | _ => none

/-- The rules of two symbols that stand for a rule in which some symbols may be left out, and how many fresh
categories were handed out then. -/
def binarize (rule : Rule) (optionals : List Bool) (fresh : Nat) :
    Except GrammarError (List Rule × Nat) :=
  if optionals.length ≠ rule.rhs.length then
    rule.refuse optionals "optional markers don't match the right-hand side"
  else
    let slots := List.zipWith Slot.ofSymbol rule.rhs optionals
    match if rule.sem.bound then splitArguments? slots else none with
    | some (before, first, after) =>
      let cat := freshCat (fresh + 1)
      let inner := before ++ [first]
      let outer := Slot.ofSymbol cat false :: after
      let apply := JoinFn.forwardBetaReduce.toFn
      let (innerRules, fresh) :=
        (rule.derive cat (inner.map Slot.symbol) rule.sem).cascade inner (fresh + 1)
      let (outerRules, fresh) :=
        (rule.derive rule.lhs (outer.map Slot.symbol) apply).cascade outer fresh
      .ok (innerRules ++ outerRules, fresh)
    | none =>
      if slots.all Slot.optional then
        rule.refuse optionals "can't have every symbol be optional"
      else .ok (rule.cascade slots fresh)

/-- A rule that is used as it is; no symbol may be left out. -/
def unbinarized (rule : Rule) (optionals : List Bool) : Except GrammarError (List Rule) :=
  if optionals.length ≠ rule.rhs.length then
    rule.refuse optionals "optional markers don't match the right-hand side"
  else if optionals.any id then rule.refuse optionals "optional symbols need binarization"
  else .ok [rule]

end Rule

end Parlance
