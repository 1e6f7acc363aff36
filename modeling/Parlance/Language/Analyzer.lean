import Parlance.Decimal.Reading
import Parlance.Language.Info
import Parlance.Text.Lowercase

/-!
# `Language.Analyzer` — a simple analysis of utterances

Utterances are cut at blanks after hyphens between words have been opened up and punctuation has been set
apart. The small number words and everything that reads as a number are numbers, capitalized words are
proper nouns, and an `s` at the end of a word is no part of its lemma.

## Contents
- **Preparation.** `breakHyphens` and `separatePunctuation`.
- **Analysis.** `analyze`.
-/

namespace Parlance.Language

open Text

/-! ## Preparation -/

/-- Hyphens before a letter become spaces, so that `Spanish-speaking` falls apart and `2012-03-28` does
not. -/
def breakHyphensIn : List Char → List Char
  | [] => []
  | c :: rest =>
    (if c == '-' && (rest.head?).any isLetter then ' ' else c) :: breakHyphensIn rest

/-- Hyphens before a letter become spaces. -/
def breakHyphens (utterance : String) : String :=
  String.ofList (breakHyphensIn utterance.toList)

/-- Whether a character is set apart, given whether a word starts and ends at it. A period inside a word
stays, so that `3.5` is one token. -/
def isSetApart (c : Char) (starts ends : Bool) : Bool :=
  if c == '.' then starts || ends
  else c == ',' || c == '?' || c == '\'' || c == '"' || c == '[' || c == ']'

/-- A quote as it is written in a token: opening ones are leaning the other way. -/
def quoteToken (c : Char) (starts : Bool) : List Char :=
  if c == '"' then (if starts then ['`', '`'] else ['\'', '\''])
  else if c == '\'' then (if starts then ['`'] else ['\''])
  else [c]

/-- Sets punctuation apart by spaces. `starts` says whether the next character is the first one or comes
after a space. -/
def separateIn (starts : Bool) : List Char → List Char
  | [] => []
  | c :: rest =>
    let ends := (rest.head?).all (· == ' ')
    let written := quoteToken c starts
    (if isSetApart c starts ends then ' ' :: written ++ [' '] else written) ++
      separateIn (c == ' ') rest

/-- Sets punctuation apart by spaces. -/
def separatePunctuation (utterance : String) : String :=
  String.ofList (separateIn true utterance.toList)

/-! ## Analysis -/

/-- The number words, from zero on. -/
def numberWords : List String :=
  ["zero", "one", "two", "three", "four", "five", "six", "seven", "eight", "nine", "ten"]

/-- The lemma of a word: without a final `s`, unless nothing is left. -/
def stem (word : String) : String :=
  match word.toList.reverse with
  | 's' :: c :: rest => String.ofList (c :: rest).reverse
  | _ => word

/-- What is known about a word: its part of speech, its named-entity tag and its value. -/
def tag (word : String) : String × String × String :=
  match numberWords.idxOf? word with
  | some n => ("CD", "NUMBER", toString n)
  | none =>
    if (Decimal.readFloat word).isSome then ("CD", "NUMBER", word)
    else
      let pos :=
        if (word.toList.head?).any isCapital then "NNP"
        else if ["'", "\"", "''", "``"].contains word then "''"
        else LanguageInfo.unknown
      (pos, LanguageInfo.unknown, LanguageInfo.unknown)

/-- The analysis of an utterance; with `lower`, tokens and lemmas are in lowercase. -/
def analyze (lower : Bool) (utterance : String) : LanguageInfo :=
  let case (word : String) : String := if lower then lowercase word else word
  let found := words (separatePunctuation (breakHyphens utterance))
  let tags := found.map tag
  { tokens := found.map case
    lemmas := found.map fun word => case (stem word)
    posTags := tags.map (·.1)
    nerTags := tags.map (·.2.1)
    nerValues := tags.map fun t => some t.2.2
    dependencies := found.map fun _ => [] }

end Parlance.Language
