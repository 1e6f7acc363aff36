import Parlance.Formula.Substitution
import Parlance.Formula.Text

/-!
# `Execution.Arithmetic` — evaluating formulas over numbers and strings

Lambdas are applied first. What remains is evaluated if it is built from values, arithmetic and calls of
the operations listed here; anything else is an error, and so the value of every formula is a value or
says why there is none.

## Contents
- **Errors.** `Failure` and its `message`.
- **Evaluation.** `evaluate`, and `execute`, which reduces first and always has a value.
-/

namespace Parlance.Execution

/-! ## Errors -/

/-- Why a formula has no value. -/
inductive Failure where
  | notNumber (got : Value)
  | notString (got : Value)
  | divisionByZero
  | badFunction (function : Formula)
  | badCall (name : String) (count : Nat)
  | notExecutable (formula : Formula)
  /-- Reduction takes more nested steps than it is given. -/
  | tooDeep (formula : Formula)

/-- The message of a failure. -/
def Failure.message : Failure → String
  | notNumber got => s!"expected a number, got {got.text}"
  | notString got => s!"expected a string, got {got.text}"
  | divisionByZero => "division by zero"
  | badFunction function => s!"bad function {function.text}"
  | badCall name count => s!"can't call {name} with {count} argument(s)"
  | notExecutable formula => s!"can't execute {formula.text}"
  | tooDeep formula => s!"can't reduce {formula.text}"

/-! ## Evaluation -/

/-- The number that a value must be. -/
def number (v : Value) : Except Failure Float :=
  match v.number? with
  | some x => .ok x
  | none => .error (.notNumber v)

/-- The string that a value must be. -/
def string : Value → Except Failure String
  | .string text => .ok text
  | v => .error (.notString v)

/-- The four operations; nothing is divided by zero. -/
def arithmetic : ArithmeticMode → Float → Float → Except Failure Float
  | .add, a, b => .ok (a + b)
  | .sub, a, b => .ok (a - b)
  | .mul, a, b => .ok (a * b)
  | .div, a, b => if b == 0.0 then .error .divisionByZero else .ok (a / b)

/-- A named operation applied to values. -/
def callNamed (name : String) (arguments : List Value) : Except Failure Value :=
  match ArithmeticMode.ofWord name, arguments with
  | some mode, [a, b] => do
    let x ← number a
    let y ← number b
    return .ofFloat (← arithmetic mode x y)
  | _, _ =>
  match name, arguments with
  | ".concat", [a, b] => do
    let s ← string a
    let t ← string b
    return .string (s ++ t)
  | ".length", [a] => do return .ofFloat (Float.ofNat (← string a).length)
  | ".toString", [a] => .ok (.string a.plain)
  | _, _ => .error (.badCall name arguments.length)

mutual
/-- The value of a formula without lambdas to apply. -/
def evaluate : Formula → Except Failure Value
  | .value v => .ok v
  | .arithmetic mode left right => do
    let a ← evaluate left
    let x ← number a
    let b ← evaluate right
    let y ← number b
    return .ofFloat (← arithmetic mode x y)
  | .call function arguments =>
    match function.name? with
    | none => .error (.badFunction function)
    | some name => do callNamed name (← evaluateAll arguments)
  | f => .error (.notExecutable f)
/-- The values of several formulas. -/
def evaluateAll : List Formula → Except Failure (List Value)
  | [] => .ok []
  | f :: rest => do
    let v ← evaluate f
    return v :: (← evaluateAll rest)
end

/-- The value of a formula whose reduction is given `depth` nested steps. -/
def evaluateReduced (depth : Nat) (f : Formula) : Except Failure Value :=
  match f.reduce? depth with
  | some reduced => evaluate reduced
  | none => .error (.tooDeep f)

/-- The value of a formula; an error value says why there is no other. -/
def arithmeticValue (f : Formula) : Value :=
  match evaluateReduced Formula.reductionDepth f with
  | .ok v => v
  | .error failure => .error failure.message

end Parlance.Execution
