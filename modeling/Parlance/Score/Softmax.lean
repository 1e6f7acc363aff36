import Parlance.Score.Basic

/-!
# `Score.Softmax` — distributions from scores

## Contents
- `probabilities`: the normalized exponentials of scores, uniform if no score is above minus infinity.
- `normalize?`: the distribution with given logarithmic weights, if they have any mass.
-/

namespace Parlance.Score

variable {α : Type} [Score α]

/-- The normalized values of `exp (score / temperature)`. -/
def probabilities (scores : List α) (temperature : α) : List α :=
  let best := maximum scores
  if eq best negInf || isNaN best then
    scores.map fun _ => one / ofNat scores.length
  else
    let weights := scores.map fun s => exp ((s - best) / temperature)
    let total := sum weights
    weights.map (· / total)

/-- The distribution with the given logarithms of weights. There is none if the largest of them, or the
sum of the weights, is not finite, or if that sum is zero. -/
def normalize? (logs : List α) : Option (List α) :=
  let best := maximum logs
  if !isFinite best then none
  else
    let weights := logs.map fun w => exp (w - best)
    let total := weights.foldl (· + ·) zero
    if eq total zero || !isFinite total then none
    else some (weights.map (· / total))

end Parlance.Score
