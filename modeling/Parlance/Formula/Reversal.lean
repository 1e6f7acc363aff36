import Parlance.Formula.Basic
import Parlance.Relation

/-!
# `Formula.Reversal` — a binary with its arguments swapped

The name of a relation is exchanged for the name of its reverse. A chain of joins under a lambda,
`(lambda x (r (s (var x))))`, is turned round link by link into `(lambda x (!s (!r (var x))))`. Any
other formula is marked as reversed.
-/

namespace Parlance.Formula

mutual
/-- A binary with its arguments swapped. -/
def reverseBinary : Formula → Formula
  | value v =>
    match v with
    | .name id _ => ofName (Relation.reverse id)
    | _ => reverse (value v)
  | lambda x body =>
    match reverseChain body (var x) with
    | some chain => lambda x chain
    | none => reverse (lambda x body)
  | f => reverse f
/-- Turns a chain of joins that ends in a variable round; `result` is what the links met so far have
become, from the inside out. -/
def reverseChain : Formula → Formula → Option Formula
  | join r c, result => reverseChain c (join (reverseBinary r) result)
  | var _, result => some result
  | _, _ => none
end

end Parlance.Formula
