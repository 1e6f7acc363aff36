/-!
# `Formula.Mode` — the operators that formulas are built with

Four small families, each with the word that stands for a member in a formula's text.
-/

namespace Parlance

/-- How two unaries are combined: intersection or union. -/
inductive MergeMode where
  | and
  | or
  deriving DecidableEq, Repr

/-- What is computed from a set of values. -/
inductive AggregateMode where
  | count
  | sum
  | avg
  | min
  | max
  deriving DecidableEq, Repr

/-- The four operations of arithmetic. -/
inductive ArithmeticMode where
  | add
  | sub
  | mul
  | div
  deriving DecidableEq, Repr

/-- Which end of a ranking is wanted. -/
inductive SuperlativeMode where
  | argmax
  | argmin
  deriving DecidableEq, Repr

namespace MergeMode

/-- The word for a mode. -/
def word : MergeMode → String
  | and => "and"
  | or => "or"

/-- The mode that a word stands for. -/
def ofWord : String → Option MergeMode
  | "and" => some and
  | "or" => some or
  | _ => none

theorem ofWord_word (m : MergeMode) : ofWord m.word = some m := by cases m <;> rfl

end MergeMode

namespace AggregateMode

/-- The word for a mode. -/
def word : AggregateMode → String
  | count => "count"
  | sum => "sum"
  | avg => "avg"
  | min => "min"
  | max => "max"

/-- The mode that a word stands for. -/
def ofWord : String → Option AggregateMode
  | "count" => some count
  | "sum" => some sum
  | "avg" => some avg
  | "min" => some min
  | "max" => some max
  | _ => none

theorem ofWord_word (m : AggregateMode) : ofWord m.word = some m := by cases m <;> rfl

end AggregateMode

namespace ArithmeticMode

/-- The sign of an operation. -/
def word : ArithmeticMode → String
  | add => "+"
  | sub => "-"
  | mul => "*"
  | div => "/"

/-- The operation that a sign stands for. -/
def ofWord : String → Option ArithmeticMode
  | "+" => some add
  | "-" => some sub
  | "*" => some mul
  | "/" => some div
  | _ => none

theorem ofWord_word (m : ArithmeticMode) : ofWord m.word = some m := by cases m <;> rfl

end ArithmeticMode

namespace SuperlativeMode

/-- The word for a mode. -/
def word : SuperlativeMode → String
  | argmax => "argmax"
  | argmin => "argmin"

/-- The mode that a word stands for. -/
def ofWord : String → Option SuperlativeMode
  | "argmax" => some argmax
  | "argmin" => some argmin
  | _ => none

theorem ofWord_word (m : SuperlativeMode) : ofWord m.word = some m := by cases m <;> rfl

end SuperlativeMode

end Parlance
