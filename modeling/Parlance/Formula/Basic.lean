import Parlance.Formula.Mode
import Parlance.Value.Text

/-!
# `Formula.Basic` — logical forms

A logical form is a tree over values and variables. A join applies a relation to what it relates to, a
merge combines two sets, a lambda abstracts over a variable, and a mark names the set it stands for so
that a formula can refer back to it. Superlatives, aggregates, arithmetic and calls of named functions
complete the language.

## Contents
- **The type** and `Formula.same`, equality up to `Value.same`.
- **Access.** Which value, string or name a formula is, and its immediate subformulas.
- **Walking.** `visit` and `collect`.
-/

namespace Parlance

/-- A logical form. -/
inductive Formula where
  | value (v : Value)
  | var (name : String)
  | join (relation child : Formula)
  | merge (mode : MergeMode) (left right : Formula)
  | not (child : Formula)
  | lambda (name : String) (body : Formula)
  | mark (name : String) (body : Formula)
  | reverse (child : Formula)
  | aggregate (mode : AggregateMode) (child : Formula)
  | arithmetic (mode : ArithmeticMode) (left right : Formula)
  | superlative (mode : SuperlativeMode) (rank count head relation : Formula)
  | call (function : Formula) (arguments : List Formula)
  deriving Inhabited

namespace Formula

/-- The formula that means nothing, for symbols without semantics. -/
def null : Formula := value (.ofName "null")

/-- A name as a formula. -/
def ofName (id : String) : Formula := value (.ofName id)

/-- A string as a formula. -/
def ofString (text : String) : Formula := value (.string text)

mutual
/-- Whether two formulas are the same, their values compared by `Value.same`. -/
def same : Formula → Formula → Bool
  | value v, value w => v.same w
  | var x, var y => x == y
  | join r c, join s d => same r s && same c d
  | merge m a b, merge n c d => m == n && same a c && same b d
  | not c, not d => same c d
  | lambda x b, lambda y c => x == y && same b c
  | mark x b, mark y c => x == y && same b c
  | reverse c, reverse d => same c d
  | aggregate m c, aggregate n d => m == n && same c d
  | arithmetic m a b, arithmetic n c d => m == n && same a c && same b d
  | superlative m r k h s, superlative m' r' k' h' s' =>
    m == m' && same r r' && same k k' && same h h' && same s s'
  | call f as, call g bs => same f g && sameList as bs
  | _, _ => false
/-- Whether two lists of formulas are the same. -/
def sameList : List Formula → List Formula → Bool
  | [], [] => true
  | a :: as, b :: bs => same a b && sameList as bs
  | _, _ => false
end

instance : BEq Formula := ⟨same⟩

/-! ## Access -/

/-- The value of a formula that is one. -/
def value? : Formula → Option Value
  | value v => some v
  | _ => none

/-- The text of a formula that is a string. -/
def string? : Formula → Option String
  | value (.string text) => some text
  | _ => none

/-- The id of a formula that is a name. -/
def name? : Formula → Option String
  | value (.name id _) => some id
  | _ => none

/-- The bare text of a formula that is a value: strings verbatim, names by id. -/
def plain? (f : Formula) : Option String := f.value?.map Value.plain

/-- The immediate subformulas, in the order in which they are written. -/
def children : Formula → List Formula
  | value _ | var _ => []
  | join r c => [r, c]
  | merge _ a b | arithmetic _ a b => [a, b]
  | not c | reverse c | aggregate _ c => [c]
  | lambda _ b | mark _ b => [b]
  | superlative _ r k h s => [r, k, h, s]
  | call f as => f :: as

theorem sizeOf_lt_of_mem_children {f c : Formula} (h : c ∈ f.children) : sizeOf c < sizeOf f := by
  cases f <;> simp only [children, List.mem_cons, List.not_mem_nil, or_false] at h
  case call g as =>
    rcases h with rfl | h
    · simp only [call.sizeOf_spec]; omega
    · have := List.sizeOf_lt_of_mem h; simp only [call.sizeOf_spec]; omega
  case superlative =>
    rcases h with rfl | rfl | rfl | rfl <;> (simp only [superlative.sizeOf_spec]; omega)
  case join | merge | arithmetic =>
    rcases h with rfl | rfl <;>
      (simp only [join.sizeOf_spec, merge.sizeOf_spec, arithmetic.sizeOf_spec]; omega)
  case not | reverse | lambda | mark | aggregate =>
    subst h
    simp only [not.sizeOf_spec, reverse.sizeOf_spec, lambda.sizeOf_spec, mark.sizeOf_spec,
      aggregate.sizeOf_spec]
    omega

/-! ## Walking -/

/-- The subformulas from the root downwards, those below a formula where `stop` holds left out. -/
def visit (stop : Formula → Bool) (f : Formula) : List Formula :=
  f :: if stop f then [] else f.children.attach.flatMap fun ⟨c, _⟩ => visit stop c
termination_by sizeOf f
decreasing_by exact sizeOf_lt_of_mem_children ‹_›

/-- What `found` yields over the subformulas from the root downwards. Below a formula that yields
something the walk goes on only if `always` is set. -/
def collect {α : Type} (found : Formula → List α) (always : Bool) (f : Formula) : List α :=
  let here := found f
  here ++
    if always || here.isEmpty then
      f.children.attach.flatMap fun ⟨c, _⟩ => collect found always c
    else []
termination_by sizeOf f
decreasing_by exact sizeOf_lt_of_mem_children ‹_›

end Formula

end Parlance
