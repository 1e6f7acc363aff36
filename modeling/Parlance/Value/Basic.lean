import Parlance.Decimal.Shortest
import Parlance.Value.Date

/-!
# `Value.Basic` — what formulas denote

A value is a truth value, a number with or without a unit, a string, the name of an entity or relation
with or without a description, a date, a list of values, or an error.

Two numbers are the same value if they compare equal or are both undefined; so zero has one value
whatever its sign. `Value.same` extends that to all values.
-/

namespace Parlance

/-- The denotation of a formula, or a literal inside one. -/
inductive Value where
  | boolean (b : Bool)
  | number (value : Float) (unit : Option String)
  | string (text : String)
  /-- An entity or relation, such as `fb:en.barack_obama`. -/
  | name (id : String) (description : Option String)
  | date (d : Date)
  | list (items : List Value)
  | error (text : String)
  deriving Inhabited

namespace Value

/-- A number without a unit. -/
def ofFloat (x : Float) : Value := number x none

/-- A name without a description. -/
def ofName (id : String) : Value := name id none

/-- Whether this is an error. -/
def isError : Value → Bool
  | error _ => true
  | _ => false

/-- The number of a numeric value. -/
def number? : Value → Option Float
  | number x _ => some x
  | _ => none

/-- Whether two numbers are the same value. -/
def sameNumber (x y : Float) : Bool := x == y || (x.isNaN && y.isNaN)

mutual
/-- Whether two values are the same. -/
def same : Value → Value → Bool
  | boolean a, boolean b => a == b
  | number x u, number y v => sameNumber x y && u == v
  | string a, string b => a == b
  | name a d, name b e => a == b && d == e
  | date a, date b => a == b
  | list as, list bs => sameList as bs
  | error a, error b => a == b
  | _, _ => false
/-- Whether two lists of values are the same. -/
def sameList : List Value → List Value → Bool
  | [], [] => true
  | a :: as, b :: bs => same a b && sameList as bs
  | _, _ => false
end

instance : BEq Value := ⟨same⟩

end Value

end Parlance
