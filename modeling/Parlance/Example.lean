import Parlance.Formula.Basic
import Parlance.Language.Analyzer

/-!
# `Example` — an utterance to parse

An example is an analysed utterance, with what it should mean if that is known.
-/

namespace Parlance

/-- An utterance with its analysis and, for training, its target. -/
structure Example where
  utterance : String
  info : LanguageInfo
  targetFormula : Option Formula := none
  targetValue : Option Value := none
  /-- The beam size to use for this example instead of the parser's. -/
  beamSize : Option Nat := none
  deriving Inhabited

namespace Example

/-- The example of an utterance, analysed. -/
def ofUtterance (utterance : String) (lower : Bool := true) : Example :=
  { utterance, info := (Language.analyze lower utterance).align }

/-- The number of tokens. -/
def length (ex : Example) : Nat := ex.info.length

/-- The token at a position. -/
def token (ex : Example) (i : Nat) : String := (ex.info.tokens[i]?).getD ""

/-- The lemma at a position. -/
def lemmaAt (ex : Example) (i : Nat) : String := (ex.info.lemmas[i]?).getD ""

/-- The tokens of a span with its bounds. -/
def describe (ex : Example) (first last : Nat) : String :=
  s!"{first}:{last}[{ex.info.phrase first last}]"

end Example

end Parlance
