import Parlance.Derivation.Arena

/-!
# `Derivation.Tree` — derivation trees as S-expressions

A derivation is written `(derivation (formula ...) (type ...) ...)`. What is not set is left out, and the
children come last if they are wanted.
-/

namespace Parlance.Arena

variable {α : Type} [Score α]

/-- A number, unless it is not set. -/
def numberEntry (key : String) (x : α) : List Sexp :=
  if Score.isNaN x then [] else [.form key [.leaf (Score.text x)]]

/-- What a tree says about one derivation. -/
def entries (d : Derivation α) : List Sexp :=
  [.form "formula" [d.formula.toSexp]] ++
    (d.value.map fun v => Sexp.form "value" [v.toSexp]).toList ++
    [.form "type" [d.type.toSexp]] ++
    numberEntry "score" d.score ++
    numberEntry "prob" d.prob ++
    numberEntry "compatibility" d.compatibility ++
    [.form "canonicalUtterance" [.leaf d.canonical], .form "cat" [.leaf d.cat]]

mutual
/-- The tree of a derivation, with those of its children if `recursive` is set. -/
def tree (arena : Arena α) (recursive : Bool) (i : Nat) : Sexp :=
  let d := arena.get i
  .form "derivation" (entries d ++ if recursive then trees arena i d.children else [])
termination_by (i, 1, 0)
/-- The trees of children. -/
def trees (arena : Arena α) (parent : Nat) : List Nat → List Sexp
  | [] => []
  | c :: rest =>
    if c < parent then tree arena true c :: trees arena parent rest else trees arena parent rest
termination_by children => (parent, 0, children.length)
end

end Parlance.Arena
