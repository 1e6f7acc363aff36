import Parlance.Grammar.Error
import Parlance.Rule
import Parlance.Table

/-!
# `Parse.UnaryOrder` — rules from one category to one category, in order

A parse applies each such rule once to a span, so a rule has to come after all rules that make its
right-hand side. There is no such order if a category can be rewritten to itself.

The order is that of a depth-first walk from each category in turn. The walk keeps track of the categories that
it is inside of; meeting one of them again closes a cycle.
-/

namespace Parlance.UnaryOrder

/-- The unary rules of each category. -/
abbrev Graph := Table (List Rule)

/-- The graph of the unary rules of a list. -/
def graph (rules : List Rule) : Graph :=
  (rules.filter Rule.isCatUnary).foldl
    (fun g rule => g.update rule.lhs fun old => old.getD [] ++ [rule]) .empty

/-- How far a walk has come. -/
structure Walk where
  sorted : List Rule := []
  /-- The categories entered, with whether they are done. -/
  seen : Table Bool := .empty

/-- Walks through a category and its right-hand sides, and lists each rule after its right-hand side. A category
that is done is left alone; one that the walk is inside of closes a cycle. -/
def visit (g : Graph) : Nat → Walk → String → Except GrammarError Walk
  | fuel, walk, cat =>
    match walk.seen.get? cat with
    | some true => .ok walk
    | some false => .error (.unaryCycle cat)
    | none =>
      match fuel with
      | 0 => .error (.unaryCycle cat)
      | fuel + 1 => do
        let entered := { walk with seen := walk.seen.insert cat false }
        let walk ← ((g.get? cat).getD []).foldlM
          (fun walk rule => do
            let walk ← visit g fuel walk ((rule.rhs.head?).getD "")
            return { walk with sorted := walk.sorted ++ [rule] })
          entered
        return { walk with seen := walk.seen.insert cat true }

/-- The unary rules of a list, each of them after the rules that make its right-hand side. A walk enters each
category of the graph at most once, and from there at most one other category. -/
def sort (rules : List Rule) : Except GrammarError (List Rule) := do
  let g := graph rules
  let walk ← g.keys.foldlM (visit g (g.size + 1)) {}
  return walk.sorted

end Parlance.UnaryOrder
