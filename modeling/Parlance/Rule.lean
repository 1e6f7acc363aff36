import Parlance.Semantics.Passing

/-!
# `Rule` — productions of a grammar

A rule rewrites a category to a sequence of symbols. Symbols that start with a dollar sign are categories,
all others are tokens of the utterance. The semantic function of a rule makes a meaning for the whole from
the meanings of the categories.

## Contents
- **Categories.** `isCat` and the categories that every parse knows.
- **Rules.** `Rule`, its kinds, its numeric flags, and its text.
-/

namespace Parlance

/-! ## Categories -/

/-- Whether a symbol is a category. -/
def isCat (symbol : String) : Bool := symbol.toList.head? == some '$'

/-- The category of whole utterances. -/
def rootCat : String := "$ROOT"
/-- The category of tokens. -/
def tokenCat : String := "$TOKEN"
/-- The category of lemmas of tokens. -/
def lemmaTokenCat : String := "$LEMMA_TOKEN"
/-- The category of phrases. -/
def phraseCat : String := "$PHRASE"
/-- The category of phrases of lemmas. -/
def lemmaPhraseCat : String := "$LEMMA_PHRASE"

/-- The categories that a parse fills by itself. -/
def builtinCats : List String := [tokenCat, lemmaTokenCat, phraseCat, lemmaPhraseCat]

/-! ## Rules -/

/-- A production. -/
structure Rule where
  lhs : String
  rhs : List String
  sem : SemanticFn
  /-- Numeric properties, such as `(floating 1)`. -/
  info : List (String × Float) := []
  /-- The statement that the rule was written as. -/
  source : Option String := none
  deriving Inhabited

namespace Rule

/-- What stands for a left-hand side where there is no rule. -/
def nullLhs : String := "<null>"

/-- The rule of derivations that no rule made. -/
def null : Rule where
  lhs := nullLhs
  rhs := []
  sem := (IdentityFn.mk).toFn

/-- Whether no rule is meant. -/
def isNull (r : Rule) : Bool := r.lhs == nullLhs

/-- Whether the rule rewrites a category to a category. -/
def isCatUnary (r : Rule) : Bool :=
  match r.rhs with
  | [symbol] => isCat symbol
  | _ => false

/-- Whether the rule rewrites to tokens only. -/
def isLexical (r : Rule) : Bool := r.rhs.all fun symbol => !isCat symbol

/-- The numeric property with a key, the first of several. -/
def property? (r : Rule) (key : String) : Option Float :=
  (r.info.find? fun (k, _) => k == key).map (·.2)

/-- Whether a numeric property is there and not zero. -/
def flag (r : Rule) (key : String) : Bool :=
  match r.property? key with
  | some v => v != 0.0
  | none => false

/-- Whether the rule applies to meanings without regard to the place of their words; `default` answers for
rules that do not say. -/
def isFloating (r : Rule) (default : Bool) : Bool :=
  match r.property? "floating" with
  | some v => v != 0.0
  | none => if r.flag "anchored" then false else default

/-- Whether the rule says that it applies to adjacent words only. -/
def isAnchored (r : Rule) : Bool :=
  r.flag "anchored" || ((r.property? "floating").isSome && !r.flag "floating")

/-- Whether the rule was induced from data. -/
def isInduced (r : Rule) : Bool := r.flag "induced"

/-- The text of a rule. -/
def text (r : Rule) : String :=
  r.lhs ++ " ->" ++ String.join (r.rhs.map fun symbol => " " ++ symbol) ++ " " ++ r.sem.tree.text

end Rule

end Parlance
