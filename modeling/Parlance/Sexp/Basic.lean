/-!
# `Sexp.Basic` — S-expressions

A leaf, which is any text, or a list of expressions. Grammars, formulas, values and types are all
written as S-expressions.

## Contents
- **The type** and its size-guided induction (`Sexp.induct`).
- **Access.** `leaf?`, `children`, `child?`, `childLeaf?`, `head?`.
- **Rewriting leaves.** `mapLeaves`, which replaces every leaf by a tree or fails.
-/

namespace Parlance

/-- A leaf or a parenthesized list of expressions. -/
inductive Sexp where
  | leaf (text : String)
  | list (items : List Sexp)
  deriving Inhabited, Repr

namespace Sexp

/-! ## Equality -/

mutual
/-- Structural equality. -/
def eqv : Sexp → Sexp → Bool
  | .leaf a, .leaf b => a == b
  | .list as, .list bs => eqvList as bs
  | _, _ => false
/-- Structural equality of lists. -/
def eqvList : List Sexp → List Sexp → Bool
  | [], [] => true
  | a :: as, b :: bs => eqv a b && eqvList as bs
  | _, _ => false
end

mutual
theorem eqv_iff : ∀ a b : Sexp, eqv a b = true ↔ a = b
  | .leaf _, .leaf _ => by simp [eqv]
  | .list as, .list bs => by simp [eqv, eqvList_iff as bs]
  | .leaf _, .list _ => by simp [eqv]
  | .list _, .leaf _ => by simp [eqv]
theorem eqvList_iff : ∀ as bs : List Sexp, eqvList as bs = true ↔ as = bs
  | [], [] => by simp [eqvList]
  | a :: as, b :: bs => by simp [eqvList, eqv_iff a b, eqvList_iff as bs]
  | [], _ :: _ => by simp [eqvList]
  | _ :: _, [] => by simp [eqvList]
end

instance : DecidableEq Sexp := fun a b => decidable_of_iff _ (eqv_iff a b)

/-! ## Access -/

/-- The text of a leaf. -/
def leaf? : Sexp → Option String
  | leaf text => some text
  | list _ => none

/-- Whether this is a leaf. -/
def isLeaf : Sexp → Bool
  | leaf _ => true
  | list _ => false

/-- The members of a list; a leaf has none. -/
def children : Sexp → List Sexp
  | leaf _ => []
  | list items => items

/-- The member at a position. -/
def child? (tree : Sexp) (i : Nat) : Option Sexp := tree.children[i]?

/-- The text of the member at a position, if that is a leaf. -/
def childLeaf? (tree : Sexp) (i : Nat) : Option String := (tree.child? i).bind leaf?

/-- The leaf in front of a list, such as `rule` in `(rule $A (a) ...)`. -/
def head? (tree : Sexp) : Option String := tree.childLeaf? 0

/-- The members after the first `n`. -/
def tail (tree : Sexp) (n : Nat) : List Sexp := tree.children.drop n

/-- The number of members. -/
def length (tree : Sexp) : Nat := tree.children.length

/-- A list with a word in front. -/
def form (head : String) (rest : List Sexp) : Sexp := list (leaf head :: rest)

/-! ## Rewriting leaves -/

mutual
/-- Replaces every leaf by what `f` makes of it, from left to right, up to the first failure. -/
def mapLeaves {ε : Type} (f : String → Except ε Sexp) : Sexp → Except ε Sexp
  | leaf text => f text
  | list items => do return list (← mapLeavesList f items)
/-- Replaces every leaf of a list of trees. -/
def mapLeavesList {ε : Type} (f : String → Except ε Sexp) : List Sexp → Except ε (List Sexp)
  | [] => return []
  | item :: rest => do
    let item ← mapLeaves f item
    return item :: (← mapLeavesList f rest)
end

mutual
/-- The leaves from left to right. -/
def leaves : Sexp → List String
  | leaf text => [text]
  | list items => leavesList items
/-- The leaves of a list of trees. -/
def leavesList : List Sexp → List String
  | [] => []
  | item :: rest => leaves item ++ leavesList rest
end

end Sexp

end Parlance
