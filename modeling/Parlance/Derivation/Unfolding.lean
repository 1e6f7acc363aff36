import Parlance.Derivation.Arena

/-!
# `Derivation.Unfolding` — derivations as trees, and what finds their features

What a derivation means is settled by the tree of derivations that it is made of, each with what it says by itself. The
numbers in an arena are not part of this. What finds the features of a derivation is given its tree.

## Contents
- **Trees.** `Label`, `DerivationTree`, `Arena.unfold`.
- **Features.** `FeatureExtractor`; `rules`, which goes by the rule that made the derivation.
-/

namespace Parlance

variable {α : Type}

/-! ## Trees -/

/-- **What a derivation says by itself**: all of it but its children, the number that it was made with, its places,
and what is found out later about predictions. -/
structure Label (α : Type) where
  cat : String
  first : Nat
  last : Nat
  rule : Rule
  formula : Formula
  type : SemType
  canonical : String
  features : Features α
  score : α

/-- What a derivation says by itself. -/
def Derivation.label (d : Derivation α) : Label α where
  cat := d.cat
  first := d.first
  last := d.last
  rule := d.rule
  formula := d.formula
  type := d.type
  canonical := d.canonical
  features := d.features
  score := d.score

/-- What a semantic function knows about a derivation. -/
def Label.toChild (l : Label α) : Child where
  cat := l.cat
  first := l.first
  last := l.last
  formula := l.formula
  type := l.type
  canonical := l.canonical

/-- A derivation with those that it is made of. -/
inductive DerivationTree (α : Type) where
  | node (label : Label α) (children : List (DerivationTree α))

/-- What the derivation at the root says by itself. -/
def DerivationTree.label : DerivationTree α → Label α
  | node l _ => l

variable [Score α]

/-- The tree of a derivation by its number. A child whose number is not smaller is not followed. -/
def Arena.unfold (arena : Arena α) (i : Nat) : DerivationTree α :=
  .node (arena.get i).label
    (((arena.get i).children.filter (· < i)).attach.map fun c => unfold arena c.1)
termination_by i
decreasing_by exact of_decide_eq_true (List.mem_filter.mp c.2).2

/-- The tree of a derivation of which the children have numbers. -/
def Derivation.unfold (arena : Arena α) (d : Derivation α) : DerivationTree α :=
  .node d.label (d.children.map arena.unfold)

/-! ## Features -/

/-- **What finds the features of a derivation** in an example, given its tree. The features that its semantic function
gave it are at the root. -/
structure FeatureExtractor (α : Type) where
  extract : Example → DerivationTree α → Features α

namespace FeatureExtractor

/-- Adds those that fire for the rule that made the derivation. -/
def rules : FeatureExtractor α where
  extract _ tree :=
    let d := tree.label
    if d.rule.isNull then d.features
    else (d.features.add "rule" "fire" Score.one).add "rule" d.rule.text Score.one

instance : Inhabited (FeatureExtractor α) := ⟨rules⟩

end FeatureExtractor

end Parlance
