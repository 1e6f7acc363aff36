import Parlance.Chart.Prune
import Parlance.Derivation.Unfolding
import Parlance.Parse.Coarse

/-!
# `Parse.Progress` — one parse, and how far it has come

A task says what is parsed and under which limits. The progress of a parse is its derivations, its chart, and
how many derivations were made, counting those that were dropped. New derivations are numbered for sorting by
the task's supply: an increasing sequence, of which nothing else is used.

## Contents
- **Errors.** `ParseError`.
- **Tasks.** `Task`, and what may be built: `allows`, `canBuild`.
- **Progress.** `Progress`, `limitReached`.
- **Derivations.** `terminals`, `Application`, `make`, `extract`, `featurize`.
- **The chart.** `addToChart`, `addToBoundedChart`.
-/

namespace Parlance

/-! ## Errors -/

/-- Why a parse fails. -/
inductive ParseError where
  /-- The semantic function of a rule failed on the children. -/
  | composition (rule children : String) (cause : SemanticError)
  /-- The search took more steps than it was given. -/
  | exhausted
  deriving DecidableEq, Repr

/-- The message of an error. -/
def ParseError.message : ParseError → String
  | composition rule children cause =>
    s!"composition failed: rule = {rule}, children = [{children}]: {cause.message}"
  | exhausted => "the search took too many steps"

/-! ## Tasks -/

/-- What is parsed, and under which limits. -/
structure Task (α : Type) where
  ctx : SemContext
  ex : Example
  /-- What finds the features of derivations. -/
  extractor : FeatureExtractor α
  weights : Weights α
  /-- The categories that can matter, if only these are built. -/
  coarse : Option CoarseChart
  beam : Beam α
  /-- No more derivations are made once there are this many. -/
  limit : Option Nat
  /-- Derivations whose value is an error are kept out. -/
  pruneErrors : Bool
  /-- The numbers that derivations are sorted by, in the order in which they are made. -/
  supply : Nat → Nat

namespace Task

variable {α : Type}

/-- The number of tokens. -/
def length (task : Task α) : Nat := task.ex.length

/-- Whether a category over a span can matter. -/
def allows (task : Task α) (cat : String) (first last : Nat) : Bool :=
  match task.coarse with
  | some chart => chart.allows cat first last
  | none => true

/-- Whether one of several categories over a span can matter. -/
def allowsAny (task : Task α) (cats : List String) (first last : Nat) : Bool :=
  task.coarse.isNone || cats.any fun cat => task.allows cat first last

/-- Whether a rule may be used over a span. Rules of the root category cover the whole text. -/
def canBuild (task : Task α) (rule : Rule) (first last : Nat) : Bool :=
  (rule.lhs != rootCat || (first == 0 && last == task.length)) && task.allows rule.lhs first last

end Task

/-! ## Progress -/

/-- How far a parse has come. -/
structure Progress (α : Type) where
  arena : Arena α
  chart : Chart α
  /-- How many derivations were made. -/
  made : Nat

namespace Progress

variable {α : Type} [Score α]

/-- The parse that has not begun. -/
def start (task : Task α) : Progress α where
  arena := .empty
  chart := .new task.length task.beam
  made := 0

/-- Whether there are as many derivations as are allowed. -/
def limitReached (p : Progress α) (task : Task α) : Bool :=
  match task.limit with
  | some limit => limit ≤ p.chart.stats.total
  | none => false

/-! ## Derivations -/

/-- A token or a phrase of the text. -/
structure Terminal where
  cat : String
  first : Nat
  last : Nat
  text : String
  canonical : String

/-- The tokens and phrases of a text, as they are and as lemmas. -/
def terminals (ex : Example) : List Terminal :=
  ((List.range ex.length).flatMap fun i => [
    ⟨tokenCat, i, i + 1, ex.token i, ex.token i⟩,
    ⟨lemmaTokenCat, i, i + 1, ex.lemmaAt i, ex.token i⟩]) ++
  (spansByStart ex.length).flatMap fun (first, last) =>
    let phrase := ex.info.phrase first last
    [⟨phraseCat, first, last, phrase, phrase⟩,
      ⟨lemmaPhraseCat, first, last, ex.info.lemmaPhrase first last, phrase⟩]

/-- The derivations of the tokens and phrases, which are the first ones that are made. -/
def terminalDerivations (task : Task α) : List (Derivation α) :=
  (terminals task.ex).zipIdx.map fun (t, i) =>
    .terminal t.cat t.first t.last t.text t.canonical (task.supply i)

/-- The parse that has made the tokens and phrases, but has none of them in its chart yet. -/
def startWithTerminals (task : Task α) : Progress α :=
  { start task with made := (terminals task.ex).length }

/-- A rule over a span, with the numbers of the derivations that it is applied to. -/
structure Application where
  rule : Rule
  first : Nat
  last : Nat
  children : List Nat

/-- What the semantic function of a rule is given. -/
def call (p : Progress α) (a : Application) : Call where
  first := a.first
  last := a.last
  children := a.children.map fun c => (p.arena.get c).toChild

/-- The results of applying a rule. -/
def results (p : Progress α) (task : Task α) (a : Application) : Stream Candidate :=
  a.rule.sem.apply task.ctx task.ex (p.call a)

/-- The failure of a rule. -/
def failure (p : Progress α) (a : Application) (cause : SemanticError) : ParseError :=
  .composition a.rule.text (p.call a).describe cause

/-- Makes the derivation of a result. -/
def make (p : Progress α) (task : Task α) (a : Application) (candidate : Candidate) :
    Derivation α × Progress α :=
  (.ofCandidate a.rule (p.call a) a.children candidate (task.supply p.made),
    { p with made := p.made + 1 })

/-- A derivation with the features that are found for it. -/
def extract (p : Progress α) (task : Task α) (d : Derivation α) : Derivation α :=
  { d with features := task.extractor.extract task.ex (d.unfold p.arena) }

/-- Finds the features of a derivation and scores it, unless it is scored. -/
def featurize (p : Progress α) (task : Task α) (d : Derivation α) : Derivation α × Progress α :=
  if d.isScored then (d, p)
  else
    (p.arena.scoreLocal task.weights (p.extract task d),
      { p with
        chart := { p.chart with
          stats := { p.chart.stats with featurized := p.chart.stats.featurized + 1 } } })

/-! ## The chart -/

/-- Counts a derivation. -/
def count (p : Progress α) : Progress α :=
  { p with
    chart := { p.chart with stats := { p.chart.stats with total := p.chart.stats.total + 1 } } }

/-- Puts a derivation into the arena and into its cell. -/
def insert (p : Progress α) (d : Derivation α) : Progress α :=
  { p with
    arena := p.arena.push d
    chart := p.chart.push d.first d.last d.cat p.arena.size }

/-- Adds a derivation to its cell, which is cut down to the beam later. -/
def addToChart (p : Progress α) (task : Task α) (d : Derivation α) : Progress α :=
  if task.pruneErrors && d.hasErrorValue then p else p.count.insert d

/-- Adds a derivation to its cell, if there is room in it, and sorts the cell. The answer is the derivation's
number. -/
def addToBoundedChart (p : Progress α) (d : Derivation α) : Option Nat × Progress α :=
  let p := p.count
  if p.chart.beam.size ≤ (p.chart.get d.first d.last d.cat).length then
    (none, { p with chart := { p.chart with stats := { p.chart.stats with fellOff := true } } })
  else
    let i := p.arena.size
    let p := p.insert d
    (some i, { p with chart := p.chart.sortCell p.arena d.first d.last d.cat })

/-- The derivations of the root category over the whole text. -/
def roots (p : Progress α) : List Nat := p.chart.get 0 p.chart.length rootCat

end Progress

end Parlance
