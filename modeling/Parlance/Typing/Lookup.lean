import Parlance.SemType.Basic

/-!
# `Typing.Lookup` — what is known about the names in a formula

A lookup gives the types of some unaries and of some binaries, the latter under the name that is not
reversed. Functions that formulas may call, and the few names with a meaning of their own, have their
types here.
-/

namespace Parlance

/-- The known types of unaries and of binaries. -/
structure TypeLookup where
  entity? : String → Option SemType
  property? : String → Option SemType

namespace TypeLookup

/-- Nothing is known. -/
def nothing : TypeLookup := ⟨fun _ => none, fun _ => none⟩

instance : Inhabited TypeLookup := ⟨nothing⟩

end TypeLookup

namespace Typing

/-- The argument types and the result type of a function that formulas may call. -/
def signature? : String → Option (List SemType × SemType)
  | "Math.cos" => some ([.float], .float)
  | ".concat" => some ([.string, .string], .string)
  | ".length" => some ([.string], .int)
  | ".toString" => some ([.any], .string)
  | _ => none

/-- The type of a name with a meaning of its own. -/
def special? : String → Option SemType
  | "*" => some .any
  | "!=" | ":" => some .anyAnyFunc
  | "<" | ">" | "<=" | ">=" => some .compareFunc
  | _ => none

end Typing

end Parlance
