import Parlance.Decimal.Reading

/-!
# `Value.Date` — calendar dates

A date has a year, a month and a day, each a 32-bit integer; a part that is not known is `-1`.
-/

namespace Parlance

/-- A calendar date. -/
structure Date where
  year : Int
  month : Int := -1
  day : Int := -1
  deriving DecidableEq, Repr, Inhabited

namespace Date

/-- The number of bits of a part of a date. -/
def bits : Nat := 32

/-- Reads `2012-03-28`, `2012-03` or `2012`. -/
def readIso (text : String) : Option Date := do
  match ← (text.splitOn "-").mapM (Decimal.readSigned bits) with
  | [year] => some { year }
  | [year, month] => some { year, month }
  | [year, month, day] => some { year, month, day }
  | _ => none

end Date

end Parlance
