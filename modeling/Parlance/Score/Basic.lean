import Parlance.Decimal.Fixed
import Parlance.Decimal.Reading

/-!
# `Score.Basic` — the numbers that derivations are scored with

Scores, weights and statistics are computed in any type with the operations of `Score`. Parsing uses
doubles; in an exact instance the same definitions can be reasoned about without rounding.

`nan` stands for a number that is not set or not defined: it is neither less than anything nor equal to
anything. Sums start from `negZero`, which is neutral for addition.
-/

namespace Parlance

/-- The operations on scores. -/
class Score (α : Type) extends Add α, Sub α, Mul α, Div α where
  ofNat : Nat → α
  ofFloat : Float → α
  negZero : α
  negInf : α
  nan : α
  lt : α → α → Bool
  le : α → α → Bool
  eq : α → α → Bool
  isNaN : α → Bool
  isFinite : α → Bool
  exp : α → α
  ln : α → α
  sqrt : α → α
  pow : α → α → α
  /-- The shortest text that reads back as the number. -/
  text : α → String
  /-- The text with a fixed number of places. -/
  fixed : Nat → α → String

namespace Score

variable {α : Type} [Score α]

/-- Zero. -/
def zero : α := ofNat 0

/-- One. -/
def one : α := ofNat 1

/-- One for true, zero for false. -/
def ofBool (b : Bool) : α := if b then one else zero

/-- The sum of a list. -/
def sum (l : List α) : α := l.foldl (· + ·) negZero

/-- The larger of two numbers; a number that is not defined does not count. -/
def max (a b : α) : α :=
  if isNaN a then b else if isNaN b then a else if lt a b then b else a

/-- The largest number of a list. -/
def maximum (l : List α) : α := l.foldl max negInf

/-- The distance of two numbers. -/
def distance (a b : α) : α := if lt (a - b) zero then b - a else a - b

/-- How two numbers compare; numbers that do not compare count as equal. -/
def order (a b : α) : Ordering :=
  if lt a b then .lt else if lt b a then .gt else .eq

end Score

/-- Doubles, with the usual rounding. -/
instance : Score Float where
  ofNat := Float.ofNat
  ofFloat x := x
  negZero := -0.0
  negInf := -1.0 / 0.0
  nan := 0.0 / 0.0
  lt a b := a < b
  le a b := a ≤ b
  eq a b := a == b
  isNaN := Float.isNaN
  isFinite := Float.isFinite
  exp := Float.exp
  ln := Float.log
  sqrt := Float.sqrt
  pow := Float.pow
  text := Decimal.showFloat
  fixed := Decimal.showFixed

end Parlance
