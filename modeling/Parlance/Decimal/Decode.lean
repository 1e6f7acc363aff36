/-!
# `Decimal.Decode` — the exact value of a double

A finite double is `m · 2 ^ q` with a natural `m` and an integer `q`. The printers of this folder
work on that pair, in exact arithmetic.
-/

namespace Parlance.Decimal

/-- What the bits of a double say. -/
inductive Decoded where
  | nan
  | infinite (negative : Bool)
  /-- The value `m · 2 ^ q`, negated if `negative`. `wide` says that the next double below is only
  half as far as the next one above. -/
  | finite (negative : Bool) (m : Nat) (q : Int) (wide : Bool)

/-- Takes the bits of a double apart. -/
def decode (x : Float) : Decoded :=
  let bits := x.toBits.toNat
  let negative := bits >>> 63 == 1
  let exponent : Nat := (bits >>> 52) % 2048
  let fraction : Nat := bits % (1 <<< 52)
  if exponent == 2047 then
    if fraction == 0 then .infinite negative else .nan
  else if exponent == 0 then .finite negative fraction (-1074) false
  else .finite negative ((1 <<< 52) + fraction) (exponent - 1075 : Int) (fraction == 0 && exponent > 1)

/-- A non-negative fraction, `num / den` with `den` positive. -/
structure Ratio where
  num : Nat
  den : Nat

/-- The number `m · 2 ^ q`. -/
def Ratio.ofDyadic (m : Nat) (q : Int) : Ratio :=
  if q < 0 then ⟨m, 1 <<< (-q).toNat⟩ else ⟨m <<< q.toNat, 1⟩

/-- The number divided by `10 ^ k`. -/
def Ratio.shiftDown (r : Ratio) (k : Int) : Ratio :=
  if k < 0 then ⟨r.num * Nat.pow 10 (-k).toNat, r.den⟩ else ⟨r.num, r.den * Nat.pow 10 k.toNat⟩

/-- A sign in front of a text. -/
def signed (negative : Bool) (text : String) : String :=
  if negative then "-" ++ text else text

/-- A run of zeros. -/
def zeros (n : Nat) : String := String.ofList (List.replicate n '0')

end Parlance.Decimal
