import Parlance.Relation
import Parlance.Sorted

/-!
# `SemType.Basic` — types of formulas

Types describe what a formula denotes. Over everything stands `top`; below it are atomic types, known
by name, and functions, of which binaries are an instance. A union is the type of what belongs to one of
its members; the empty union is `bottom`, the type of nothing.

## Contents
- **The type**, its order, and the named types that inference uses.
- **Validity.** `isValid`: a type that something can have.
- **Unions.** `unionOf`, which always builds the simplest form: flat, in order, without repetitions and
  invalid members, `top` if that is among the members, and the only member if there is just one.
-/

namespace Parlance

/-- A type of formulas. -/
inductive SemType where
  | top
  | atomic (name : String)
  | func (argument result : SemType)
  | union (members : List SemType)
  deriving Inhabited, Repr

namespace SemType

/-! ## The order -/

mutual
/-- `top` comes before atomic types, those before functions, and unions come last; two of a kind are
compared by their parts. -/
def compare : SemType → SemType → Ordering
  | top, top => .eq
  | top, _ => .lt
  | _, top => .gt
  | atomic a, atomic b => Ord.compare a b
  | atomic _, _ => .lt
  | _, atomic _ => .gt
  | func a r, func b s => (compare a b).then (compare r s)
  | func _ _, _ => .lt
  | _, func _ _ => .gt
  | union as, union bs => compareLists as bs
/-- The lexicographic order of lists of types. -/
def compareLists : List SemType → List SemType → Ordering
  | [], [] => .eq
  | [], _ :: _ => .lt
  | _ :: _, [] => .gt
  | a :: as, b :: bs => (compare a b).then (compareLists as bs)
end

instance : Ord SemType := ⟨compare⟩

/-- Whether a type does not come after another one. -/
def le (a b : SemType) : Bool := compare a b != .gt

mutual
/-- Structural equality. -/
def eqv : SemType → SemType → Bool
  | top, top => true
  | atomic a, atomic b => a == b
  | func a r, func b s => eqv a b && eqv r s
  | union as, union bs => eqvList as bs
  | _, _ => false
/-- Structural equality of lists. -/
def eqvList : List SemType → List SemType → Bool
  | [], [] => true
  | a :: as, b :: bs => eqv a b && eqvList as bs
  | _, _ => false
end

mutual
theorem eqv_iff (a b : SemType) : eqv a b = true ↔ a = b := by
  cases a with
  | top => cases b <;> simp [eqv]
  | atomic x => cases b <;> simp [eqv]
  | func s t =>
    cases b with
    | func u v => simp [eqv, eqv_iff s u, eqv_iff t v]
    | _ => simp [eqv]
  | union as =>
    cases b with
    | union bs => simp [eqv, eqvList_iff as bs]
    | _ => simp [eqv]
theorem eqvList_iff (as bs : List SemType) : eqvList as bs = true ↔ as = bs := by
  cases as with
  | nil => cases bs <;> simp [eqvList]
  | cons a as =>
    cases bs with
    | nil => simp [eqvList]
    | cons b bs => simp [eqvList, eqv_iff a b, eqvList_iff as bs]
end

instance : DecidableEq SemType := fun a b => decidable_of_iff _ (eqv_iff a b)

/-! ## Named types -/

/-- The type of nothing. -/
def bottom : SemType := union []
/-- The type of everything that is not a function. -/
def any : SemType := atomic Relation.any
/-- The type of entities. -/
def entity : SemType := atomic Relation.entity
/-- The type of truth values. -/
def boolean : SemType := atomic Relation.boolean
/-- The type of whole numbers. -/
def int : SemType := atomic Relation.int
/-- The type of numbers with a fraction. -/
def float : SemType := atomic Relation.float
/-- The type of numbers. -/
def number : SemType := atomic Relation.number
/-- The type of texts. -/
def string : SemType := atomic Relation.text
/-- The type of dates. -/
def date : SemType := atomic Relation.date

/-! ## Validity -/

mutual
/-- Whether something can have this type. -/
def isValid : SemType → Bool
  | top => true
  | atomic _ => true
  | func a r => isValid a && isValid r
  | union members => anyValid members
/-- Whether one of several types is valid. -/
def anyValid : List SemType → Bool
  | [] => false
  | t :: rest => isValid t || anyValid rest
end

@[simp] theorem isValid_bottom : bottom.isValid = false := rfl

/-! ## Unions -/

mutual
/-- The valid members of a type, unions inside unions opened up. -/
def members : SemType → List SemType
  | union ts => membersOfAll ts
  | top => [top]
  | atomic name => [atomic name]
  | func a r => if isValid a && isValid r then [func a r] else []
/-- The valid members of several types. -/
def membersOfAll : List SemType → List SemType
  | [] => []
  | t :: rest => members t ++ membersOfAll rest
end

/-- The union of a list of types in its simplest form. -/
def unionOf (types : List SemType) : SemType :=
  let ms := membersOfAll types
  if ms.contains top then top
  else
    match sortedSet le ms with
    | [t] => t
    | ts => union ts

/-- Numbers and dates. -/
def numberOrDate : SemType := unionOf [number, date]
/-- Relations between any two things. -/
def anyAnyFunc : SemType := func any any
/-- Comparisons. -/
def compareFunc : SemType := func numberOrDate numberOrDate

end SemType

end Parlance
