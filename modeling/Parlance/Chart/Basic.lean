import Parlance.Derivation.Arena
import Parlance.Grid

/-!
# `Chart.Basic` — the derivations of each category over each span

A chart has a cell for each span. A cell maps categories, in the order in which they were first found, to
the numbers of their derivations. Besides, a chart keeps the settings of the beam and figures about the
parse.

## Contents
- **Beam and figures.** `Beam`, `Chart.Stats`.
- **Charts.** `Chart`, `get`, `push`, `cats`, `sortCell`.
- **Text.** `Chart.text`.
-/

namespace Parlance

/-! ## Beam and figures -/

/-- How a sorted cell is cut down. -/
inductive PrunePolicy (α : Type) where
  /-- The best derivations are kept, as many as the beam is wide. -/
  | topK
  /-- The derivations are kept whose score is at most the logarithm of the threshold below the best. -/
  | probDiff (threshold : α)

/-- The settings of the beam. -/
structure Beam (α : Type) where
  size : Nat
  policy : PrunePolicy α
  /-- Scores are disturbed by random numbers up to this one before they are sorted. -/
  noise : α
  /-- The random numbers, each of them at least zero and below one. -/
  draws : Nat → α

/-- Figures about a parse. -/
structure Chart.Stats where
  /-- The size of the largest cell before pruning, and which one it was. -/
  maxCell : Nat := 0
  maxCellName : Option String := none
  /-- Whether a derivation was ever dropped. -/
  fellOff : Bool := false
  total : Nat := 0
  featurized : Nat := 0
  deriving Inhabited, DecidableEq, Repr

/-- Records the figures of a parse that took `time` milliseconds. -/
def Chart.Stats.record {α : Type} [Score α] (stats : Chart.Stats) (tokens : Nat) (time : α)
    (e : Evaluation α) : Evaluation α :=
  let e := e.record "numTokens" (Score.ofNat tokens)
  let e := e.record "parseTime" time
  let e := e.recordKeyed "maxCellSize" stats.maxCellName (Score.ofNat stats.maxCell)
  let e := e.recordBool "fallOffBeam" stats.fellOff
  let e := e.record "totalDerivs" (Score.ofNat stats.total)
  e.record "numOfFeaturizedDerivs" (Score.ofNat stats.featurized)

/-! ## Charts -/

/-- The derivations of each category over one span. -/
abbrev Cell := Table (List Nat)

/-- The derivations of each category over each span. -/
structure Chart (α : Type) where
  length : Nat
  cells : Grid Cell
  beam : Beam α
  stats : Chart.Stats
  /-- How many random numbers were used. -/
  drawn : Nat

namespace Chart

variable {α : Type} [Score α]

/-- The chart without derivations over `n` tokens. -/
def new (n : Nat) (beam : Beam α) : Chart α where
  length := n
  cells := .replicate n .empty
  beam
  stats := {}
  drawn := 0

/-- The cell of a span. -/
def cell? (chart : Chart α) (first last : Nat) : Option Cell := chart.cells.get? first last

/-- The derivations of a category over a span. -/
def get (chart : Chart α) (first last : Nat) (cat : String) : List Nat :=
  ((chart.cell? first last).bind (·.get? cat)).getD []

/-- Whether a category was found over a span. -/
def contains (chart : Chart α) (first last : Nat) (cat : String) : Bool :=
  ((chart.cell? first last).map (·.contains cat)).getD false

/-- The categories and derivations over a span. -/
def entries (chart : Chart α) (first last : Nat) : List (String × List Nat) :=
  ((chart.cell? first last).map Table.toList).getD []

/-- The categories over a span. -/
def cats (chart : Chart α) (first last : Nat) : List String :=
  (chart.entries first last).map (·.1)

/-- Adds a derivation to a cell. -/
def push (chart : Chart α) (first last : Nat) (cat : String) (i : Nat) : Chart α :=
  { chart with
    cells := chart.cells.modify first last fun cell =>
      cell.update cat fun old => old.getD [] ++ [i] }

/-- The number of derivations in all cells. -/
def size (chart : Chart α) : Nat :=
  (chart.cells.toList.flatMap fun (_, _, cell) => cell.values.flatten).length

/-- Replaces the derivations of a category that was found over a span. -/
def setCell (chart : Chart α) (first last : Nat) (cat : String) (l : List Nat) : Chart α :=
  if chart.contains first last cat then
    { chart with cells := chart.cells.modify first last fun cell => cell.insert cat l }
  else chart

/-- Sorts the derivations of a category over a span by score. -/
def sortCell (chart : Chart α) (arena : Arena α) (first last : Nat) (cat : String) : Chart α :=
  chart.setCell first last cat (arena.sort (chart.get first last cat))

/-! ## Text -/

/-- The formulas of a chart with their scores, cell by cell. -/
def text (chart : Chart α) (arena : Arena α) : String :=
  String.join <| chart.cells.toList.flatMap fun (first, last, cell) =>
    cell.toList.flatMap fun (cat, l) =>
      s!"{first}..{last} {cat}: {l.length} derivation(s)\n" ::
        l.map fun i =>
          let d := arena.get i
          s!"  {d.formula.text} [score={Score.text d.score}]\n"

end Chart

end Parlance
