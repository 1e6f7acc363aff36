import Parlance.Execution.Basic
import Parlance.Learning.Evaluation
import Parlance.Learning.Weights
import Parlance.Rule

/-!
# `Derivation.Basic` — a category over a span, with its meaning

A derivation says that a category covers a span and what it means there. It knows the rule that made it
and, by their numbers in the arena, the derivations that the rule was applied to. Scores, probabilities,
values and places in the beam are filled in later.

## Contents
- **The type.** `Derivation`, `terminal`, `ofCandidate`.
- **Scoring.** `isScored`, and the order of `before`.
- **Execution.** `execute` and `setCompatibility`, each of which has an effect once.
-/

namespace Parlance

/-- A category over a span. -/
structure Derivation (α : Type) where
  cat : String
  first : Nat
  last : Nat
  rule : Rule
  children : List Nat
  formula : Formula
  type : SemType
  /-- The words of the utterance that the derivation stands for. -/
  canonical : String
  features : Features α
  /-- Not a number until the derivation is scored. -/
  score : α
  prob : α
  /-- How well the value agrees with the target; not a number until they are compared. -/
  compatibility : α
  value : Option Value
  stats : Evaluation α
  /-- Goes up with every derivation that is made, and decides between equal scores. -/
  created : Nat
  /-- The place in the cell when it was sorted, and the largest one in the whole tree; `-1` before. -/
  postSort : Int
  maxBeam : Int
  /-- The place in the cell before it was sorted, and the largest one in the whole tree; `-1` before. -/
  preSort : Int
  maxUnsorted : Int

namespace Derivation

variable {α : Type} [Score α]

/-! ## The type -/

/-- A derivation without scores. -/
def make (cat : String) (first last : Nat) (rule : Rule) (children : List Nat) (canonical : String)
    (candidate : Candidate) (created : Nat) : Derivation α where
  cat
  first
  last
  rule
  children
  formula := candidate.formula
  type := candidate.type
  canonical
  features := candidate.features.convert Score.ofFloat
  score := Score.nan
  prob := Score.nan
  compatibility := Score.nan
  value := candidate.value
  stats := .empty
  created
  postSort := -1
  maxBeam := -1
  preSort := -1
  maxUnsorted := -1

instance : Inhabited (Derivation α) := ⟨make "" 0 0 .null [] "" ⟨.null, .top, .empty, none⟩ 0⟩

/-- A token or a phrase, which means its text. -/
def terminal (cat : String) (first last : Nat) (text canonical : String) (created : Nat) :
    Derivation α :=
  make cat first last .null [] canonical { formula := .ofString text, type := .string } created

/-- What a semantic function knows about a derivation. -/
def toChild (d : Derivation α) : Child where
  cat := d.cat
  first := d.first
  last := d.last
  formula := d.formula
  type := d.type
  canonical := d.canonical

/-- The derivation that a rule makes of a candidate. -/
def ofCandidate (rule : Rule) (call : Call) (children : List Nat) (candidate : Candidate)
    (created : Nat) : Derivation α :=
  make rule.lhs call.first call.last rule children
    (" ".intercalate (call.children.map Child.canonical)) candidate created

/-- Whether the derivation spans a whole utterance of `n` tokens. -/
def isRoot (d : Derivation α) (n : Nat) : Bool := d.cat == rootCat && d.first == 0 && d.last == n

/-! ## Scoring -/

/-- Whether the derivation has a score. -/
def isScored (d : Derivation α) : Bool := !Score.isNaN d.score

/-- The score that the derivation is sorted by; without a score it comes last. -/
def sortKey (d : Derivation α) : α := if Score.isNaN d.score then Score.negInf else d.score

/-- How two derivations are sorted: the higher score first, of equal ones the one made first. -/
def compare (d e : Derivation α) : Ordering :=
  (Score.order e.sortKey d.sortKey).then (Ord.compare d.created e.created)

/-- Whether a derivation may stand before another one. -/
def before (d e : Derivation α) : Bool := compare d e != .gt

/-! ## Execution -/

/-- Executes the formula, unless that was done. -/
def execute (d : Derivation α) (executor : Executor) : Derivation α :=
  match d.value with
  | some _ => d
  | none => { d with value := some (executor.execute d.formula) }

/-- Sets the compatibility, unless that was done. -/
def setCompatibility (d : Derivation α) (compatibility : α) : Derivation α :=
  if Score.isNaN d.compatibility then { d with compatibility } else d

/-- Whether the value is an error. -/
def hasErrorValue (d : Derivation α) : Bool := (d.value.map Value.isError).getD false

end Derivation

end Parlance
