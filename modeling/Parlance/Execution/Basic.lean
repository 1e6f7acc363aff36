import Parlance.Execution.Arithmetic
import Parlance.Score.Basic

/-!
# `Execution.Basic` — what executes formulas, and what a prediction is worth

An executor gives every formula a value. `matching` leaves formulas as they are, so that two formulas
can be compared by their text; `arithmetic` evaluates them. An evaluator says how well a predicted value
agrees with the target; `exact` asks for the same value.
-/

namespace Parlance

/-- A way to execute formulas. -/
structure Executor where
  execute : Formula → Value

namespace Executor

/-- A value is its own value; any other formula denotes a name, which is its text. -/
def matching : Executor where
  execute f := (f.value?).getD (.ofName f.text)

/-- Formulas are evaluated. -/
def arithmetic : Executor where
  execute := Execution.arithmeticValue

instance : Inhabited Executor := ⟨matching⟩

end Executor

/-- Whether a predicted value is the target. -/
def isCorrect (target : Value) (predicted : Option Value) : Bool :=
  match predicted with
  | some v => v == target
  | none => false

/-- A way to compare a predicted value, if there is one, with the target. -/
structure ValueEvaluator (α : Type) where
  compatibility : Value → Option Value → α

namespace ValueEvaluator

variable {α : Type} [Score α]

/-- One for the target itself, zero for anything else. -/
def exact : ValueEvaluator α where
  compatibility target predicted := Score.ofBool (isCorrect target predicted)

instance : Inhabited (ValueEvaluator α) := ⟨exact⟩

end ValueEvaluator

end Parlance
