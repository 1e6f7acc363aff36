import Parlance.Grammar.Error
import Parlance.Rule
import Parlance.Table

/-!
# `Parse.Siblings` — rules by what stands next to a symbol

Given a symbol of a rule with two symbols, an index tells which symbol the rule wants next to it. It also lists
the rules that rewrite to a category alone and those that rewrite to tokens.
-/

namespace Parlance

/-- Rules with at most two symbols, by their symbols. -/
structure SiblingIndex where
  /-- For a left symbol, the right symbols with the rules of both. -/
  rightOf : Table (Table (List Rule))
  /-- For a right symbol, the left symbols with the rules of both. -/
  leftOf : Table (Table (List Rule))
  /-- The rules that rewrite to a category alone, by that category. -/
  unary : Table (List Rule)
  /-- The rules that rewrite to tokens, by these with blanks between them. -/
  literal : Table (List Rule)
  deriving Inhabited

namespace SiblingIndex

/-- The index without rules. -/
def empty : SiblingIndex := ⟨.empty, .empty, .empty, .empty⟩

/-- Adds a rule at the end of those with its key. -/
def append (rules : Table (List Rule)) (key : String) (rule : Rule) : Table (List Rule) :=
  rules.update key fun old => old.getD [] ++ [rule]

/-- Adds a rule at the end of those with its two keys. -/
def appendPair (rules : Table (Table (List Rule))) (key sibling : String) (rule : Rule) :
    Table (Table (List Rule)) :=
  rules.update key fun old => append (old.getD .empty) sibling rule

/-- Adds a rule to an index. -/
def add (index : SiblingIndex) (rule : Rule) : SiblingIndex :=
  if rule.isCatUnary then
    { index with unary := append index.unary ((rule.rhs.head?).getD "") rule }
  else if rule.isLexical then
    { index with literal := append index.literal (" ".intercalate rule.rhs) rule }
  else
    match rule.rhs with
    | [left, right] =>
      { index with
        rightOf := appendPair index.rightOf left right rule
        leftOf := appendPair index.leftOf right left rule }
    | _ => index

/-- The index of rules with at most two symbols each. -/
def ofRules (rules : List Rule) : Except GrammarError SiblingIndex :=
  match rules.find? fun rule => rule.rhs.length > 2 with
  | some rule => .error (.binarize rule.text "the agenda parser needs a binarized grammar")
  | none => .ok (rules.foldl add empty)

/-- The rules that rewrite to the tokens of a phrase. -/
def literalRules (index : SiblingIndex) (phrase : String) : List Rule :=
  (index.literal.get? phrase).getD []

end SiblingIndex

end Parlance
