import Parlance.Decimal.Shortest

/-!
# `Decimal.Fixed` — a double with a fixed number of places

The exact value is rounded to the last place; a value halfway between two decimals goes to the one
whose last digit is even.
-/

namespace Parlance.Decimal

/-- The natural number closest to a fraction, the even one of two equally close. -/
def Ratio.round (r : Ratio) : Nat :=
  let whole := r.num / r.den
  let twice := 2 * (r.num % r.den)
  if twice < r.den then whole
  else if r.den < twice then whole + 1
  else whole + whole % 2

/-- The text of a double with `places` digits after the point. -/
def showFixed (places : Nat) (x : Float) : String :=
  match decode x with
  | .nan => "NaN"
  | .infinite negative => signed negative "inf"
  | .finite negative m q _ =>
    let scaled := (Ratio.ofDyadic m q).shiftDown (-(places : Int))
    signed negative (withPoint (toString scaled.round) places)

end Parlance.Decimal
