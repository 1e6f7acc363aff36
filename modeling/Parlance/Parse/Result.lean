import Parlance.Learning.ExpectedCounts
import Parlance.Parse.Progress

/-!
# `Parse.Result` — what a parse says about an utterance

The predictions of a parse are its derivations of the root category over the whole utterance, the best one
first. Each of them gets a probability, a value and, if there is a target, its agreement with that.

Predictions whose scores are as good as the best one's share the credit for being right: the share of each is
its part of the probability of all of them.

## Contents
- **Results.** `ParseResult`, `best?`, `correct`.
- **Execution.** `executePredictions`.
- **Figures.** `Standing`, `Standing.record`.
-/

namespace Parlance

/-! ## Results -/

/-- What a parse says about an utterance. -/
structure ParseResult (α : Type) where
  arena : Arena α
  chart : Chart α
  /-- The numbers of the predictions, the best one first. -/
  predictions : List Nat
  /-- What the predictions were compared with. -/
  target : Option Value
  evaluation : Evaluation α
  /-- What to learn from the parse, if that was asked for and there is anything. -/
  expectedCounts : Option (Table α)

namespace ParseResult

variable {α : Type} [Score α]

/-- The best prediction. -/
def best? (r : ParseResult α) : Option (Derivation α) := r.predictions.head?.map r.arena.get

/-- The predictions that agree fully with the target. -/
def correct (r : ParseResult α) : List Nat := r.predictions.filter r.arena.isCorrect

end ParseResult

variable {α : Type} [Score α]

/-! ## Execution -/

/-- Executes a prediction and compares it with the target. -/
def executePrediction (executor : Executor) (evaluator : ValueEvaluator α) (target : Option Value)
    (d : Derivation α) : Derivation α :=
  let d := d.execute executor
  match target with
  | some target => d.setCompatibility (evaluator.compatibility target d.value)
  | none => d

/-- Executes predictions and compares them with the target. -/
def executePredictions (executor : Executor) (evaluator : ValueEvaluator α) (target : Option Value)
    (arena : Arena α) (predictions : List Nat) : Arena α :=
  predictions.foldl (fun arena i => arena.modify i (executePrediction executor evaluator target)) arena

/-- Gives the predictions their probabilities. -/
def setProbabilities (arena : Arena α) (predictions : List Nat) : Arena α :=
  let probabilities := Score.probabilities (predictions.map arena.score) Score.one
  (predictions.zip probabilities).foldl
    (fun arena (i, prob) => arena.modify i fun d => { d with prob }) arena

/-! ## Figures -/

/-- Where a prediction stands. -/
structure Standing (α : Type) where
  score : α
  prob : α
  /-- How well it agrees with the target; zero if nothing is known. -/
  agreement : α

namespace Standing

/-- Where a derivation stands. -/
def ofDerivation (hasTarget : Bool) (d : Derivation α) : Standing α where
  score := d.score
  prob := d.prob
  agreement := if hasTarget && !Score.isNaN d.compatibility then d.compatibility else Score.zero

/-- Whether the agreement is full. -/
def isRight (s : Standing α) : Bool := Score.eq s.agreement Score.one

/-- The distance below which scores count as equal. -/
def tolerance : α := Score.ofFloat 1e-10

/-- The predictions in front that are as good as the best one. -/
def ties (l : List (Standing α)) : List (Standing α) :=
  match l with
  | [] => []
  | best :: _ => l.takeWhile fun s => Score.lt (Score.distance s.score best.score) tolerance

/-- The share of the best predictions that are right, and their mean agreement. -/
def credit (l : List (Standing α)) : α × α :=
  let tied := ties l
  let mass := tied.foldl (fun mass s => mass + s.prob) Score.zero
  tied.foldl
    (fun (right, part) s =>
      (if s.isRight then right + s.prob / mass else right, part + s.agreement * s.prob / mass))
    (Score.zero, Score.zero)

/-- Records how good the predictions are. -/
def record (l : List (Standing α)) (e : Evaluation α) : Evaluation α :=
  let (right, part) := credit l
  let n : α := Score.ofNat l.length
  let e := e.record "correct" right
  let e := e.recordBool "oracle" (l.any isRight)
  let e := e.record "partCorrect" part
  let e := e.record "partOracle" (l.foldl (fun best s => Score.max best s.agreement) Score.zero)
  let e := e.record "numCandidates" n
  if l.isEmpty then e else e.record "parsedNumCandidates" n

end Standing

/-- A place in a beam as a number. -/
def ofPlace (place : Int) : α :=
  if place < 0 then Score.zero - Score.ofNat place.natAbs else Score.ofNat place.natAbs

/-- Records how good predictions are, how wide a beam the first right one needs, and what their execution has
recorded. -/
def recordPredictions (arena : Arena α) (predictions : List Nat) (hasTarget : Bool) :
    Evaluation α :=
  let derivations := predictions.map arena.get
  let standings := derivations.map (Standing.ofDerivation hasTarget)
  let e := Standing.record standings .empty
  let e :=
    match (derivations.zip standings).find? fun (_, s) => s.isRight with
    | some (d, _) =>
      (e.record "correctMaxBeamPosition" (ofPlace d.maxBeam)).record
        "correctMaxUnsortedBeamPosition" (ofPlace d.maxUnsorted)
    | none => e
  derivations.foldl (fun e d => e.merge d.stats) e

end Parlance
