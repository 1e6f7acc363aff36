import Parlance.Grammar.Binarize
import Parlance.Semantics.Registry
import Parlance.Sorted

/-!
# `Grammar.Basic` — what a grammar knows while it is compiled

A grammar collects rules. Besides, it keeps the macros that are defined, the tags that conditions have
mentioned, a copy of the statements that were read, and the number of fresh categories handed out.

## Contents
- **Grammars.** `GrammarOptions`, `Grammar`, `Grammar.new`.
- **Rules.** `addRule`, `categories`, `countByLhs`.
- **Text.** `Grammar.text`.
-/

namespace Parlance

/-! ## Grammars -/

/-- What a grammar is compiled for. -/
structure GrammarOptions where
  /-- The tags under which conditions hold. -/
  tags : List String := []
  /-- Whether rules are brought to two symbols each. -/
  binarize : Bool := true
  /-- Whether a rule that does not say so may apply to words that are not adjacent. -/
  defaultFloating : Bool := false
  deriving Inhabited

/-- Rules with what is needed to compile more of them. -/
structure Grammar where
  options : GrammarOptions
  registry : Registry
  rules : List Rule
  macros : Table Sexp
  /-- The tags that conditions have mentioned, in alphabetic order. -/
  tags : List String
  /-- The statements that were read, line by line for files. -/
  statements : List String
  /-- How many fresh categories were handed out. -/
  fresh : Nat
  deriving Inhabited

namespace Grammar

/-- The grammar without rules. -/
def new (options : GrammarOptions := {}) (registry : Registry := .standard) : Grammar where
  options
  registry
  rules := []
  macros := .empty
  tags := []
  statements := []
  fresh := 0

/-! ## Rules -/

/-- Adds a rule in which some symbols may be left out. -/
def addRule (grammar : Grammar) (rule : Rule) (optionals : List Bool) :
    Except GrammarError Grammar :=
  if grammar.options.binarize then do
    let (rules, fresh) ← rule.binarize optionals grammar.fresh
    return { grammar with rules := grammar.rules ++ rules, fresh }
  else do
    let rules ← rule.unbinarized optionals
    return { grammar with rules := grammar.rules ++ rules }

/-- Adds the tags of a statement to those mentioned. -/
def mention (grammar : Grammar) (tags : List String) : Grammar :=
  { grammar with tags := sortedNames (grammar.tags ++ tags) }

/-- The categories that rules define and those that every parse knows, in alphabetic order. -/
def categories (grammar : Grammar) : List String :=
  sortedNames (builtinCats ++ grammar.rules.map Rule.lhs)

/-- How many rules define each category. -/
def countByLhs (grammar : Grammar) : Table Nat :=
  grammar.rules.foldl (fun counts rule => counts.update rule.lhs fun old => old.getD 0 + 1) .empty

/-! ## Text -/

/-- The text of a grammar: the tags that conditions mention, and the rules. -/
def text (grammar : Grammar) : String :=
  "# tags:" ++ String.join (grammar.tags.map fun tag => " " ++ tag) ++ "\n" ++
    String.join (grammar.rules.map fun rule => rule.text ++ "\n")

end Grammar

end Parlance
