import Parlance.Rule
import Parlance.Table

/-!
# `Parse.Trie` — rules by their right-hand sides

A trie files rules under their right-hand sides, one symbol a level. Every node knows the left-hand sides of
the rules below it, so that a search can turn back where none of them is wanted.

Rules are told apart by number, not by content: a rule that is filed twice is there once, and two rules that
say the same are there twice.

## Contents
- **Tries.** `NumberedRule`, `Trie`.
- **Filing.** `Trie.add`, `Trie.ofRules`.
- **Walking.** `Trie.next?`, `Trie.walk?`.
-/

namespace Parlance

/-! ## Tries -/

/-- A rule and its number. -/
structure NumberedRule where
  number : Nat
  rule : Rule
  deriving Inhabited

/-- Rules by their right-hand sides. -/
inductive Trie where
  /-- The rules that end here, the nodes for each next symbol, and the left-hand sides of all rules here and
  below. -/
  | node (rules : List NumberedRule) (children : List (String × Trie)) (cats : List String)

namespace Trie

/-- The trie without rules. -/
def empty : Trie := node [] [] []

instance : Inhabited Trie := ⟨empty⟩

/-- The rules whose right-hand side ends here, in the order in which they were filed. -/
def rules : Trie → List NumberedRule
  | node rules _ _ => rules

/-- The nodes for each next symbol. -/
def children : Trie → Table Trie
  | node _ children _ => ⟨children⟩

/-- The left-hand sides of the rules here and below. -/
def cats : Trie → List String
  | node _ _ cats => cats

/-! ## Filing -/

/-- Adds a left-hand side, unless it is there. -/
def addCat (cats : List String) (cat : String) : List String :=
  if cats.contains cat then cats else cats ++ [cat]

/-- Adds a rule, unless one with its number is there. -/
def addRule (rules : List NumberedRule) (rule : NumberedRule) : List NumberedRule :=
  if rules.any fun r => r.number == rule.number then rules else rules ++ [rule]

/-- Files a rule under what is left of its right-hand side. -/
def addUnder (rule : NumberedRule) : List String → Trie → Trie
  | [], trie =>
    node (addRule trie.rules rule) trie.children.toList (addCat trie.cats rule.rule.lhs)
  | symbol :: rest, trie =>
    node trie.rules
      (trie.children.update symbol fun old => addUnder rule rest (old.getD empty)).toList
      (addCat trie.cats rule.rule.lhs)

/-- Files a rule under its right-hand side. -/
def add (trie : Trie) (rule : NumberedRule) : Trie := addUnder rule rule.rule.rhs trie

/-- The trie of a list of rules. -/
def ofRules (rules : List NumberedRule) : Trie := rules.foldl add empty

/-! ## Walking -/

/-- The node for the next symbol. -/
def next? (trie : Trie) (symbol : String) : Option Trie := trie.children.get? symbol

/-- The node for a sequence of symbols. -/
def walk? : Trie → List String → Option Trie
  | trie, [] => some trie
  | trie, symbol :: rest => (trie.next? symbol).bind fun trie => walk? trie rest

end Trie

/-- The rules of a list, numbered from zero. -/
def numberRules (rules : List Rule) : List NumberedRule :=
  rules.zipIdx.map fun (rule, number) => { number, rule }

/-- The rules of a list that do not rewrite a category to a category, in a trie. -/
def trieOf (rules : List Rule) : Trie :=
  .ofRules ((numberRules rules).filter fun r => !r.rule.isCatUnary)

end Parlance
