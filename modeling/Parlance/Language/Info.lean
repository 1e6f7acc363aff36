/-!
# `Language.Info` — tokens and what is known about them

An analysed utterance is a list of tokens and, token by token, lemmas, part-of-speech tags, named-entity
tags and values, and dependency arcs.

## Contents
- **The type** and `align`, which brings all lists to the length of the tokens.
- **Phrases.** The texts of a span: `phrase`, `lemmaPhrase`, `posPhrase`, `nerPhrase`.
- **Entities.** `nerSpan?`, the value of a maximal span with one tag.
-/

namespace Parlance

/-- A labelled arc from a token to one that modifies it. -/
structure Dependency where
  label : String
  modifier : Nat
  deriving DecidableEq, Repr

/-- Tokens with their annotations. -/
structure LanguageInfo where
  tokens : List String := []
  lemmas : List String := []
  posTags : List String := []
  nerTags : List String := []
  nerValues : List (Option String) := []
  dependencies : List (List Dependency) := []
  deriving Inhabited, DecidableEq, Repr

namespace LanguageInfo

/-- The number of tokens. -/
def length (info : LanguageInfo) : Nat := info.tokens.length

/-- The tag of a token of which nothing is known. -/
def unknown : String := "UNK"

/-- A list cut to a length, or filled up with an item. -/
def fit {α : Type} (n : Nat) (filler : α) (l : List α) : List α :=
  l.take n ++ List.replicate (n - l.length) filler

/-- Brings every annotation to the length of the tokens. A lemma that is missing is the token itself, a
missing tag is unknown, and what is too much is dropped. -/
def align (info : LanguageInfo) : LanguageInfo :=
  let n := info.length
  { tokens := info.tokens
    lemmas := info.lemmas.take n ++ info.tokens.drop info.lemmas.length
    posTags := fit n unknown info.posTags
    nerTags := fit n unknown info.nerTags
    nerValues := fit n none info.nerValues
    dependencies := fit n [] info.dependencies }

/-! ## Phrases -/

/-- The items from `first` up to `last`, one space apart. -/
def span (items : List String) (first last : Nat) : String :=
  " ".intercalate ((items.take last).drop first)

/-- The tokens of a span. -/
def phrase (info : LanguageInfo) (first last : Nat) : String := span info.tokens first last

/-- The lemmas of a span. -/
def lemmaPhrase (info : LanguageInfo) (first last : Nat) : String := span info.lemmas first last

/-- The part-of-speech tags of a span. -/
def posPhrase (info : LanguageInfo) (first last : Nat) : String := span info.posTags first last

/-- The named-entity tags of a span. -/
def nerPhrase (info : LanguageInfo) (first last : Nat) : String := span info.nerTags first last

/-! ## Entities -/

/-- The named-entity value of a token. -/
def nerValue? (info : LanguageInfo) (i : Nat) : Option String := (info.nerValues[i]?).join

/-- A value without the comparison sign in front of it. -/
def dropComparison (value : String) : String :=
  let chars := value.toList
  match ["<=", ">=", "<", ">"].find? fun op => op.toList.isPrefixOf chars with
  | some op => String.ofList (chars.drop op.length)
  | none => value

/-- The named-entity value of a span whose first token has the given tag, if the value is that of every
token of the span and of neither neighbour. A comparison sign in front is dropped. -/
def nerSpan? (info : LanguageInfo) (tag : String) (first last : Nat) : Option String := do
  let value ← info.nerValue? first
  if info.nerTags[first]? ≠ some tag then none
  let same (i : Nat) : Bool := info.nerValue? i == some value
  if 0 < first && same (first - 1) then none
  if last < info.nerValues.length && same last then none
  if !((List.range' (first + 1) (last - (first + 1))).all same) then none
  return dropComparison value

end LanguageInfo

end Parlance
