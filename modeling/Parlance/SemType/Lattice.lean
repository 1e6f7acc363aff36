import Parlance.SemType.Basic
import Parlance.SemType.Hierarchy

/-!
# `SemType.Lattice` — meeting, applying and reversing types

All three distribute over unions and leave out what is impossible.

## Contents
- **Meet.** `meet`, the greatest type below two others.
- **Functions.** `apply`, `reverse`, `argType` and `retType`.
-/

namespace Parlance.SemType

/-! ## Meet -/

/-- The greatest type below two others. Of two atomic types it is the lower one, if one lies below the
other; functions meet argument by argument and result by result. -/
def meet (h : Hierarchy) : SemType → SemType → SemType
  | top, t => t
  | t, top => t
  | union ms, t => unionOf (ms.map fun m => meet h m t)
  | t, union ms => unionOf (ms.map fun m => meet h t m)
  | atomic a, atomic b =>
    if h.isSubtype a b then atomic a else if h.isSubtype b a then atomic b else bottom
  | func a r, func b s =>
    let argument := meet h a b
    let result := meet h r s
    if argument.isValid && result.isValid then func argument result else bottom
  | atomic _, func _ _ => bottom
  | func _ _, atomic _ => bottom
termination_by s t => sizeOf s + sizeOf t

/-! ## Functions -/

mutual
/-- The type of a function of this type applied to an argument. -/
def apply (h : Hierarchy) : SemType → SemType → SemType
  | top, _ => top
  | atomic _, _ => bottom
  | func a r, argument => if (meet h a argument).isValid then r else bottom
  | union ms, argument => unionOf (applyAll h ms argument)
/-- The types of functions of several types applied to an argument. -/
def applyAll (h : Hierarchy) : List SemType → SemType → List SemType
  | [], _ => []
  | t :: rest, argument => apply h t argument :: applyAll h rest argument
end

mutual
/-- Argument and result exchanged. -/
def reverse : SemType → SemType
  | top => top
  | atomic _ => bottom
  | func a r => func r a
  | union ms => unionOf (reverseAll ms)
/-- Arguments and results of several types exchanged. -/
def reverseAll : List SemType → List SemType
  | [] => []
  | t :: rest => reverse t :: reverseAll rest
end

/-- The type of the arguments of functions of this type. -/
def argType (h : Hierarchy) (t : SemType) : SemType := t.reverse.apply h top

/-- The type of the results of functions of this type. -/
def retType (h : Hierarchy) (t : SemType) : SemType := t.apply h top

end Parlance.SemType
