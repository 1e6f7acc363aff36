import Parlance.Grammar.Error
import Parlance.SemType.Text
import Parlance.Text.Lowercase
import Parlance.Typing.Inference

/-!
# `Semantics.Lexicon` — what phrases may mean

A lexicon maps phrases to entries. Phrases are filed in lowercase; a look-up takes a phrase as it is.

## Contents
- **Entries and lexicons.** `LexicalEntry`, `Lexicon`, `add`, `lookup`.
- **Reading.** `Lexicon.read`, which keeps the entries before the first one that it refuses.
-/

namespace Parlance

/-- One meaning of a phrase. -/
structure LexicalEntry where
  /-- The phrase as it was written. -/
  phrase : String
  formula : Formula
  type : SemType
  features : List (String × Float)

/-- The entries of each phrase, in the order in which they were added. -/
structure Lexicon where
  entries : Table (List LexicalEntry)

namespace Lexicon

/-- The lexicon without entries. -/
def empty : Lexicon := ⟨.empty⟩

instance : Inhabited Lexicon := ⟨empty⟩

/-- Files an entry under its phrase. -/
def add (lexicon : Lexicon) (entry : LexicalEntry) : Lexicon :=
  ⟨lexicon.entries.update (Text.lowercase entry.phrase) fun old => old.getD [] ++ [entry]⟩

/-- The entries of a phrase. -/
def lookup (lexicon : Lexicon) (phrase : String) : List LexicalEntry :=
  (lexicon.entries.get? phrase).getD []

/-- The number of phrases. -/
def size (lexicon : Lexicon) : Nat := lexicon.entries.size

/-! ## Reading -/

/-- Refuses a statement. -/
def malformed {α : Type} (form : Sexp) (reason : String) : Except GrammarError α :=
  .error (.malformed form.text reason)

/-- The feature that a tree `(name value)` gives. -/
def readFeature (form tree : Sexp) : Except GrammarError (String × Float) :=
  match tree.childLeaf? 0 with
  | none => malformed form "feature name must be a leaf"
  | some name =>
    match (tree.childLeaf? 1).bind Decimal.readFloat with
    | none => malformed form "feature value must be a number"
    | some value => .ok (name, value)

/-- What the trees after an entry's formula say: its type, if one of them is a type, the last of several,
and its features. -/
def readExtras (form : Sexp) :
    List Sexp → Option SemType → List (String × Float) →
      Except GrammarError (Option SemType × List (String × Float))
  | [], type, features => .ok (type, features)
  | extra :: rest, type, features => do
    if extra.head? == some "features" then
      let more ← (extra.tail 1).mapM (readFeature form)
      readExtras form rest type (features ++ more)
    else
      match SemType.ofSexp extra with
      | .ok t => readExtras form rest (some t) features
      | .error cause => throw (.formula form.text cause)

/-- The entry that a tree `(entry phrase formula [type] [(features (name value)...)])` gives. An entry
without a type has the one that inference finds. -/
def readEntry (setting : Typing.Setting) (form : Sexp) : Except GrammarError LexicalEntry := do
  if form.head? ≠ some "entry" || form.length < 3 then
    malformed form "expected (entry phrase formula ...)"
  let some phrase := form.childLeaf? 1 | malformed form "phrase must be a string"
  match (form.child? 2).map Formula.ofSexp with
  | some (.ok formula) =>
    let (type, features) ← readExtras form (form.tail 3) none []
    return { phrase, formula, type := type.getD (Typing.inferType setting formula), features }
  | some (.error cause) => throw (.formula form.text cause)
  | none => malformed form "expected (entry phrase formula ...)"

/-- Adds the entries that trees give, up to the first one that is refused. -/
def addAll (setting : Typing.Setting) (lexicon : Lexicon) :
    List Sexp → Lexicon × Except GrammarError Unit
  | [] => (lexicon, .ok ())
  | form :: rest =>
    match readEntry setting form with
    | .ok entry => addAll setting (lexicon.add entry) rest
    | .error e => (lexicon, .error e)

/-- Adds the entries of a text; the answer is how many there are. -/
def read (setting : Typing.Setting) (lexicon : Lexicon) (source : String) :
    Lexicon × Except GrammarError Nat :=
  match Sexp.readAll source with
  | .error cause => (lexicon, .error (.sexp cause))
  | .ok forms =>
    match addAll setting lexicon forms with
    | (lexicon, .ok ()) => (lexicon, .ok forms.length)
    | (lexicon, .error e) => (lexicon, .error e)

end Lexicon

end Parlance
