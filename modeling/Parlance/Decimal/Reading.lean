/-!
# `Decimal.Reading` — numbers read off a text

## Contents
- **Doubles.** `readFloat`: an optional sign, then digits with an optional point and an optional
  exponent, or one of the words for infinity and for no number, in either case of letters.
- **Integers.** `readSigned` and `readUnsigned`: an optional sign (a minus only where negative numbers
  are in range) and digits; a number out of range is refused.

The whole text has to be the number: no blanks around it, no separators inside.
-/

namespace Parlance.Decimal

/-! ## Digits -/

/-- The value of a digit. -/
def digitValue (c : Char) : Nat := c.toNat - '0'.toNat

/-- The number that a list of digits denotes. -/
def ofDigits (digits : List Char) : Nat :=
  digits.foldl (fun n c => 10 * n + digitValue c) 0

/-- The number that a text of digits denotes; there is at least one. -/
def readDigits (text : List Char) : Option Nat :=
  if !text.isEmpty && text.all Char.isDigit then some (ofDigits text) else none

/-- The sign in front of a text, and the rest. -/
def splitSign : List Char → Bool × List Char
  | '-' :: rest => (true, rest)
  | '+' :: rest => (false, rest)
  | text => (false, text)

/-! ## Doubles -/

/-- The double closest to `digits · 10 ^ place`. Beyond the range of doubles on either side the
answer is known without the power of ten. -/
def scaledFloat (digits : Nat) (place : Int) : Float :=
  if digits == 0 then 0.0
  else
    let lead : Int := (digits.log2 : Int) * 30103 / 100000 + place
    if lead > 310 then 1.0 / 0.0
    else if lead < -345 then 0.0
    else Float.ofScientific digits (decide (place < 0)) place.natAbs

/-- The exponent part of a number: nothing, or a mark and a whole number. -/
def readExponent : List Char → Option Int
  | [] => some 0
  | c :: rest =>
    if c == 'e' || c == 'E' then
      let (negative, digits) := splitSign rest
      (readDigits digits).map fun n => if negative then -(n : Int) else n
    else none

/-- A number without its sign, written with digits. -/
def readMagnitude (text : List Char) : Option Float :=
  let whole := text.takeWhile Char.isDigit
  let (fraction, rest) :=
    match text.dropWhile Char.isDigit with
    | '.' :: rest => (rest.takeWhile Char.isDigit, rest.dropWhile Char.isDigit)
    | rest => ([], rest)
  if whole.isEmpty && fraction.isEmpty then none
  else (readExponent rest).map fun e => scaledFloat (ofDigits (whole ++ fraction)) (e - fraction.length)

/-- A number without its sign. -/
def readPositive (text : List Char) : Option Float :=
  let word := String.ofList (text.map Char.toLower)
  if word == "inf" || word == "infinity" then some (1.0 / 0.0)
  else if word == "nan" then some (0.0 / 0.0)
  else readMagnitude text

/-- The double that a text denotes. -/
def readFloat (text : String) : Option Float :=
  let (negative, rest) := splitSign text.toList
  (readPositive rest).map fun x => if negative then -x else x

/-! ## Integers -/

/-- The integer that a text denotes, if it fits `bits` bits with a sign. -/
def readSigned (bits : Nat) (text : String) : Option Int := do
  let (negative, rest) := splitSign text.toList
  let n ← readDigits rest
  let value : Int := if negative then -(n : Int) else n
  let limit : Int := Nat.pow 2 (bits - 1)
  if -limit ≤ value && value < limit then some value else none

/-- The natural number that a text denotes, if it fits `bits` bits. -/
def readUnsigned (bits : Nat) (text : String) : Option Nat := do
  let digits :=
    match text.toList with
    | '+' :: rest => rest
    | digits => digits
  let n ← readDigits digits
  if n < Nat.pow 2 bits then some n else none

end Parlance.Decimal
