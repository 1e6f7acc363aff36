import Parlance.Decimal.Decode

/-!
# `Decimal.Shortest` — the fewest digits that read back

A double is written with the fewest significant digits for which every reader that rounds to nearest
gets the same double back, and of those the ones closest to its value. There is never an exponent:
`100000000000000000000000`, `0.0000001`, `3`.

The reals that round to a double form an interval around it. On the grid of multiples of `10 ^ k` only
the two neighbours of the value need a test: the coarsest grid with a neighbour inside the interval
has the fewest digits. Of two hits the closer one is taken, and the upper one of two equally close.
-/

namespace Parlance.Decimal

/-- A decimal `digits · 10 ^ place`. -/
structure Scaled where
  digits : Nat
  place : Int

/-- Of the two multiples of `10 ^ k` next to the value `4m`, the closest one that lies between `low`
and `high`, all in units of `2 ^ q`. The bounds belong to the interval if `closed`. -/
def gridHit (m low high : Nat) (q : Int) (closed : Bool) (k : Int) : Option Nat :=
  let at_ (n : Nat) : Ratio := (Ratio.ofDyadic n q).shiftDown k
  let value := at_ (4 * m)
  let below := value.num / value.den
  let above := below + 1
  let lower := at_ low
  let upper := at_ high
  let inside (n : Nat) : Bool :=
    if closed then lower.num ≤ n * lower.den && n * upper.den ≤ upper.num
    else lower.num < n * lower.den && n * upper.den < upper.num
  match inside below, inside above with
  | true, true =>
    if value.num - below * value.den < above * value.den - value.num then some below else some above
  | true, false => some below
  | false, true => some above
  | false, false => none

/-- The first grid with a hit, from `10 ^ k` on downwards. -/
def firstHit (m low high : Nat) (q : Int) (closed : Bool) : Nat → Int → Scaled
  | 0, k => ⟨0, k⟩
  | fuel + 1, k =>
    match gridHit m low high q closed k with
    | some n => ⟨n, k⟩
    | none => firstHit m low high q closed fuel (k - 1)

/-- The shortest decimal that reads back as `m · 2 ^ q`. -/
def shortest (m : Nat) (q : Int) (wide : Bool) : Scaled :=
  let low := if wide then 4 * m - 1 else 4 * m - 2
  let top : Int := ((m.log2 + 1 : Nat) + q) * 30103 / 100000 + 2
  firstHit m low (4 * m + 2) (q - 2) (m % 2 == 0) 24 top

/-- Drops the zeros at the end of a fraction. -/
def Scaled.normalize : Nat → Scaled → Scaled
  | 0, s => s
  | fuel + 1, s =>
    if s.place < 0 && s.digits % 10 == 0 then normalize fuel ⟨s.digits / 10, s.place + 1⟩ else s

/-- Digits with a point before the last `places` of them. -/
def withPoint (digits : String) (places : Nat) : String :=
  if places == 0 then digits
  else
    let padded := zeros (places + 1 - digits.length) ++ digits
    String.ofList (padded.toList.take (padded.length - places)) ++ "." ++
      String.ofList (padded.toList.drop (padded.length - places))

/-- A decimal in positional notation. -/
def Scaled.text (s : Scaled) : String :=
  let s := s.normalize 24
  if s.place < 0 then withPoint (toString s.digits) (-s.place).toNat
  else toString s.digits ++ zeros s.place.toNat

/-- The text of a double. -/
def showFloat (x : Float) : String :=
  match decode x with
  | .nan => "NaN"
  | .infinite negative => signed negative "inf"
  | .finite negative 0 _ _ => signed negative "0"
  | .finite negative m q wide => signed negative (shortest m q wide).text

end Parlance.Decimal
