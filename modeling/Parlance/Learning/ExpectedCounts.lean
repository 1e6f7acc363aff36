import Parlance.Derivation.Arena
import Parlance.Score.Softmax

/-!
# `Learning.ExpectedCounts` — what to learn from the derivations of an utterance

Learning compares two distributions over the predictions: the one that the weights give, and the same one
restricted to the correct predictions. The difference is a number of each prediction, and the features of
its tree, times that number, are added up. Weights that move along the sum make the correct predictions
more likely.

## Contents
- **Modes.** `CountMode`, the distributions that are compared.
- **Distributions.** `isCorrect`, `bestOf?`, `logWeights?`.
- **Counts.** `expectedCounts?`.
-/

namespace Parlance

/-- The distributions that learning compares. -/
inductive CountMode where
  /-- Predictions are as likely as their scores say. -/
  | standard
  /-- All predictions are equally likely. -/
  | uniform
  /-- Only the best correct prediction and the best wrong one count. -/
  | top
  deriving DecidableEq, Repr, Inhabited

namespace Arena

variable {α : Type} [Score α]

/-! ## Distributions -/

/-- Whether a prediction agrees fully with the target. -/
def isCorrect (arena : Arena α) (i : Nat) : Bool := Score.eq (arena.get i).compatibility Score.one

/-- One for a correct prediction and zero for another. -/
def reward (arena : Arena α) (i : Nat) : α := Score.ofBool (arena.isCorrect i)

/-- The place of the prediction with the largest score among those that are correct, or among those that are
not; of equal ones the first. -/
def bestOf? (arena : Arena α) (correct : Bool) (predictions : List Nat) : Option Nat :=
  let places := predictions.zipIdx.filter fun (i, _) => arena.isCorrect i == correct
  (places.foldl
    (fun best (i, place) =>
      match best with
      | none => some (i, place)
      | some (j, here) => if Score.lt (arena.score j) (arena.score i) then some (i, place) else some (j, here))
    none).map (·.2)

/-- The logarithms of weights that give all the mass to one of `n` places. -/
def oneHot (n place : Nat) : List α :=
  (List.range n).map fun i => if i = place then Score.zero else Score.negInf

/-- The logarithmic weights of the correct distribution and of the one of the weights. There are none if
the best correct prediction is better than the best wrong one by the margin, or if one of them is missing,
in a mode that compares these two. -/
def logWeights? (arena : Arena α) (predictions : List Nat) (mode : CountMode) (margin : α) :
    Option (List α × List α) :=
  match mode with
  | .standard =>
    some (predictions.map fun i => arena.score i + Score.ln (arena.reward i),
      predictions.map arena.score)
  | .uniform =>
    some (predictions.map fun i => Score.ln (arena.reward i), predictions.map fun _ => Score.zero)
  | .top => do
    let good ← arena.bestOf? true predictions
    let bad ← arena.bestOf? false predictions
    let scoreAt (place : Nat) : α := arena.score ((predictions[place]?).getD 0)
    if Score.le (scoreAt bad + margin) (scoreAt good) then none
    else some (oneHot predictions.length good, oneHot predictions.length bad)

/-! ## Counts -/

/-- The features of prediction trees, each tree times its factor. Trees with factor zero are left out. -/
def weightedFeatures (arena : Arena α) (terms : List (Nat × α)) : Table α :=
  terms.foldl
    (fun counts (i, factor) =>
      if Score.eq factor Score.zero then counts else arena.addTreeFeatures factor i counts)
    .empty

/-- The counts to learn from, if there is anything to learn. -/
def expectedCounts? (arena : Arena α) (predictions : List Nat) (mode : CountMode) (margin : α) :
    Option (Table α) := do
  if predictions.isEmpty then none
  let (correct, predicted) ← arena.logWeights? predictions mode margin
  let correct ← Score.normalize? correct
  let predicted ← Score.normalize? predicted
  return arena.weightedFeatures (predictions.zip (List.zipWith (· - ·) correct predicted))

end Arena

end Parlance
