import Parlance.Learning.Features

/-!
# `Learning.Evaluation` — running summaries of named statistics

A figure keeps the count, the sum, the sum of squares and the extremes of the values recorded, with the
key under which each extreme was first reached. An evaluation holds figures in the order in which they
were first recorded; merging two of them is recording the values of the second after those of the first.

## Contents
- **Figures.** `Figure`, `record`, `merge`, `mean`, `deviation`, `text`.
- **Evaluations.** `Evaluation`, `record`, `merge`, `summary`, `text`.
-/

namespace Parlance

/-! ## Figures -/

/-- The running summary of one statistic. -/
structure Figure (α : Type) where
  count : Nat
  sum : α
  squares : α
  least : Option (α × Option String)
  greatest : Option (α × Option String)

namespace Figure

variable {α : Type} [Score α]

/-- The summary of no values. -/
def empty : Figure α := ⟨0, Score.zero, Score.zero, none, none⟩

/-- The better one of two extremes; the first one unless the second is strictly better. -/
def better (beats : α → α → Bool) (old new : Option (α × Option String)) :
    Option (α × Option String) :=
  match old, new with
  | none, e => e
  | some o, none => some o
  | some o, some e => if beats e.1 o.1 then some e else some o

/-- Records a value. -/
def record (f : Figure α) (key : Option String) (value : α) : Figure α where
  count := f.count + 1
  sum := f.sum + value
  squares := f.squares + value * value
  least := better Score.lt f.least (some (value, key))
  greatest := better (fun a b => Score.lt b a) f.greatest (some (value, key))

/-- Records the values of another summary. -/
def merge (f g : Figure α) : Figure α where
  count := f.count + g.count
  sum := f.sum + g.sum
  squares := f.squares + g.squares
  least := better Score.lt f.least g.least
  greatest := better (fun a b => Score.lt b a) f.greatest g.greatest

/-- The mean of the values, zero if there is none. -/
def mean (f : Figure α) : α :=
  if f.count == 0 then Score.zero else f.sum / Score.ofNat f.count

/-- The standard deviation of the values, zero if there is none. -/
def deviation (f : Figure α) : α :=
  if f.count == 0 then Score.zero
  else
    let mean := f.mean
    Score.sqrt (Score.max (f.squares / Score.ofNat f.count - mean * mean) Score.zero)

/-- The mean, the count, and the largest value with its key. -/
def text (f : Figure α) : String :=
  let top :=
    match f.greatest with
    | none => ""
    | some (value, none) => s!", max={Score.text value}"
    | some (value, some key) => s!", max={Score.text value} @ {key}"
  s!"{Score.fixed 4 f.mean} (n={f.count}{top})"

end Figure

/-! ## Evaluations -/

/-- Statistics in the order in which they were first recorded. -/
structure Evaluation (α : Type) where
  figures : Table (Figure α)

namespace Evaluation

variable {α : Type} [Score α]

/-- No statistics. -/
def empty : Evaluation α := ⟨.empty⟩

/-- Records a value of a statistic under a key. -/
def recordKeyed (e : Evaluation α) (name : String) (key : Option String) (value : α) :
    Evaluation α :=
  ⟨e.figures.update name fun old => (old.getD .empty).record key value⟩

/-- Records a value of a statistic. -/
def record (e : Evaluation α) (name : String) (value : α) : Evaluation α :=
  e.recordKeyed name none value

/-- Records a truth value as one or zero. -/
def recordBool (e : Evaluation α) (name : String) (value : Bool) : Evaluation α :=
  e.record name (Score.ofBool value)

/-- Records the values of another evaluation. -/
def merge (e other : Evaluation α) : Evaluation α :=
  ⟨other.figures.toList.foldl
    (fun figures (name, figure) => figures.update name fun old => (old.getD .empty).merge figure)
    e.figures⟩

/-- The summary of a statistic. -/
def get? (e : Evaluation α) (name : String) : Option (Figure α) := e.figures.get? name

/-- The names of the statistics. -/
def names (e : Evaluation α) : List String := e.figures.keys

/-- Whether nothing was recorded. -/
def isEmpty (e : Evaluation α) : Bool := e.figures.isEmpty

/-- Names and means, with a delimiter between statistics. -/
def summary (e : Evaluation α) (delimiter : String) : String :=
  delimiter.intercalate
    (e.figures.toList.map fun (name, figure) => s!"{name}={Score.fixed 4 figure.mean}")

/-- A line for each statistic. -/
def text (e : Evaluation α) : String :=
  String.join (e.figures.toList.map fun (name, figure) => s!"{name} = {figure.text}\n")

end Evaluation

end Parlance
