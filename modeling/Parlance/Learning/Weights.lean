import Parlance.Learning.Features

/-!
# `Learning.Weights` — the weight of each feature, and learning steps

A feature without a weight of its own has the default weight. A learning step moves each weight along its
gradient. The size of a step goes down with the number of steps or, if it adapts, with the gradients that
the feature had so far.
-/

namespace Parlance

/-- How weights start and how far a step moves them. -/
structure StepOptions (α : Type) where
  initial : α
  /-- Every feature has its own step size, divided by the root of its summed squared gradients. -/
  adaptive : Bool
  /-- Without `adaptive`, the step size is divided by this power of the number of steps. -/
  reduction : α
  defaultWeight : α

/-- The weights of features, and what learning steps keep. -/
structure Weights (α : Type) where
  options : StepOptions α
  weights : Table α
  squares : Table α
  steps : Nat

namespace Weights

variable {α : Type} [Score α]

/-- Steps of size one that do not go down, and weights that start at zero. -/
def standardOptions : StepOptions α where
  initial := Score.one
  adaptive := false
  reduction := Score.zero
  defaultWeight := Score.zero

/-- No feature has a weight of its own. -/
def new (options : StepOptions α := standardOptions) : Weights α where
  options
  weights := .empty
  squares := .empty
  steps := 0

/-- The weight of a feature. -/
def weight (w : Weights α) (key : String) : α := (w.weights.get? key).getD w.options.defaultWeight

/-- Sets the weight of a feature. -/
def set (w : Weights α) (key : String) (value : α) : Weights α :=
  { w with weights := w.weights.insert key value }

/-- The weighted sum of a feature vector. -/
def dot (w : Weights α) (v : Features α) : α :=
  Score.sum (v.toList.map fun (key, value) => value * w.weight key)

/-- The step size for a feature, and the squared gradients after this step. -/
def stepSize (w : Weights α) (key : String) (gradient : α) : α × Table α :=
  if w.options.adaptive then
    let total := (w.squares.get? key).getD Score.zero + gradient * gradient
    (w.options.initial / Score.sqrt total, w.squares.insert key total)
  else
    (w.options.initial / Score.pow (Score.ofNat w.steps) w.options.reduction, w.squares)

/-- Moves one weight along its gradient, unless the gradient is zero or the move is not finite. -/
def stepFeature (w : Weights α) (key : String) (gradient : α) : Weights α :=
  if Score.eq (gradient * gradient) Score.zero then w
  else
    let (size, squares) := w.stepSize key gradient
    let w := { w with squares }
    let move := size * gradient
    if Score.isFinite move then
      { w with
        weights := w.weights.update key fun old => old.getD w.options.defaultWeight + move }
    else w

/-- Moves every weight along its gradient. -/
def step (w : Weights α) (gradient : Table α) : Weights α :=
  gradient.toList.foldl (fun w (key, g) => w.stepFeature key g) { w with steps := w.steps + 1 }

end Weights

end Parlance
