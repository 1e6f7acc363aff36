/-!
# `Relation` — names of types and relations

A name with exactly one period is a unary, such as `fb:people.person`; one with two or more is a binary,
such as `fb:people.person.place_of_birth`. `*` is a unary, the comparators and `:` are binaries. An
exclamation mark in front of a binary reverses it, and each comparator has another one as its reverse.
-/

namespace Parlance.Relation

/-! ## Well-known names -/

/-- Truth values. -/
def boolean : String := "fb:type.boolean"
/-- Whole numbers. -/
def int : String := "fb:type.int"
/-- Numbers with a fraction. -/
def float : String := "fb:type.float"
/-- Dates. -/
def date : String := "fb:type.datetime"
/-- Texts. -/
def text : String := "fb:type.text"
/-- Numbers. -/
def number : String := "fb:type.number"
/-- Entities. -/
def entity : String := "fb:common.topic"
/-- Everything that is not a function. -/
def any : String := "fb:type.any"
/-- The relation between a type and its members. -/
def memberOf : String := "fb:type.object.type"
/-- The unary that everything satisfies. -/
def star : String := "*"
/-- The binary that relates everything. -/
def colon : String := ":"

/-! ## Classes of names -/

/-- The comparators. -/
def comparators : List String := ["!=", "<", ">", "<=", ">="]

/-- Whether a name is a comparator. -/
def isComparator (name : String) : Bool := comparators.contains name

/-- The number of periods in a name. -/
def periods (name : String) : Nat := name.toList.count '.'

/-- Whether a name is a unary. -/
def isUnary (name : String) : Bool := name == star || periods name == 1

/-- Whether a name is a binary. -/
def isBinary (name : String) : Bool := isComparator name || name == colon || 2 ≤ periods name

/-! ## Reversal -/

/-- The comparator that relates its arguments the other way round. -/
def reverseComparator : String → Option String
  | "!=" => some "!="
  | "<" => some ">="
  | ">" => some "<="
  | "<=" => some ">"
  | ">=" => some "<"
  | _ => none

/-- Whether a name is marked as reversed. -/
def isReversed (name : String) : Bool := name.toList.head? == some '!' && name != "!="

/-- The name of the reversed relation. -/
def reverse (name : String) : String :=
  match reverseComparator name with
  | some op => op
  | none => if isReversed name then String.ofList (name.toList.drop 1) else "!" ++ name

end Parlance.Relation
