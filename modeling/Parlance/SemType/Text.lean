import Parlance.ReadError
import Parlance.SemType.Basic
import Parlance.Sexp.Printer

/-!
# `SemType.Text` — types as S-expressions

`top` and atomic types are leaves, functions are written `(-> argument result)` and unions
`(union member...)`. A reader takes `(-> a b c)` for `(-> a (-> b c))` and simplifies unions.
-/

namespace Parlance.SemType

mutual
/-- A type as a tree. -/
def toSexp : SemType → Sexp
  | top => .leaf "top"
  | atomic name => .leaf name
  | func a r => .form "->" [toSexp a, toSexp r]
  | union ms => .form "union" (toSexps ms)
/-- Types as trees. -/
def toSexps : List SemType → List Sexp
  | [] => []
  | t :: rest => toSexp t :: toSexps rest
end

/-- The text of a type. -/
def text (t : SemType) : String := t.toSexp.text

/-- The function from each of the first types to the last one, in order. -/
def arrows : SemType → List SemType → SemType
  | t, [] => t
  | t, u :: rest => func t (arrows u rest)

/-- Succeeds with all results. The last tree is looked at first, then the others from right to left. -/
def allFromRight {α ε : Type} : List (Except ε α) → Except ε (List α)
  | [] => .ok []
  | r :: rest => do
    let later ← allFromRight rest
    return (← r) :: later

mutual
/-- The type that a tree stands for. -/
def ofSexp (tree : Sexp) : Except ReadError SemType :=
  match tree with
  | .leaf name => .ok (if name == "top" then top else atomic name)
  | .list [] => .error (.type tree.text)
  | .list (head :: rest) =>
    match head.leaf? with
    | some "union" => do return unionOf (← (ofEach rest).mapM id)
    | some "->" =>
      if rest.length < 2 then .error (.type tree.text)
      else do
        match ← allFromRight (ofEach rest) with
        | t :: ts => return arrows t ts
        | [] => throw (.type tree.text)
    | _ => .error (.type tree.text)
/-- What each of several trees stands for. -/
def ofEach : List Sexp → List (Except ReadError SemType)
  | [] => []
  | tree :: rest => ofSexp tree :: ofEach rest
end

/-- The type that a text denotes. -/
def read : String → Except ReadError SemType := readWith ofSexp

end Parlance.SemType
