import Mathlib.Logic.Relation
import Parlance.Formula.Reversal

/-!
# `Proofs.Converse` — a reversed binary denotes the converse

A binary is the name of a relation, or a lambda below which links lead from its variable outwards, each of them a
binary in turn. It denotes a relation: a name the one that it stands for, a chain the composition of its links.

To reverse a chain is to take its links in the opposite order, each of them reversed. That is how the converse of a
composition is composed, and done twice it gives the chain back.

## Contents
- **Composition.** `composition` of a list of relations, and its converse.
- **Binaries.** `IsBinary`, and what a formula `denotes`.
- **Reversal.** `reverseBinary_lambda`, and so `reverseBinary_converse`.
-/

namespace Parlance.Formula

universe u

variable {α : Type u}

/-! ## Composition -/

/-- The relations of a list one after the other. -/
def composition (relations : List (α → α → Prop)) : α → α → Prop := relations.foldr Relation.Comp Eq

theorem composition_append (rs ss : List (α → α → Prop)) :
    composition (rs ++ ss) = Relation.Comp (composition rs) (composition ss) := by
  induction rs with
  | nil => exact Relation.eq_comp.symm
  | cons r rs ih =>
    show Relation.Comp r (composition (rs ++ ss)) = _
    rw [ih, ← Relation.comp_assoc]
    rfl

/-- **The converse of a composition** is the composition of the converses in the opposite order. -/
theorem flip_composition (rs : List (α → α → Prop)) :
    flip (composition rs) = composition (rs.map flip).reverse := by
  induction rs with
  | nil =>
    funext y z
    exact propext eq_comm
  | cons r rs ih =>
    have hlast : composition [flip r] = flip r := Relation.comp_eq
    show flip (Relation.Comp r (composition rs)) = _
    rw [Relation.flip_comp, ih, List.map_cons, List.reverse_cons, composition_append, hlast]

/-! ## Binaries -/

/-- **A binary** is a name that is the reverse of its reverse, or a lambda below which a chain of binaries leads to its
variable. -/
inductive IsBinary : Formula → Prop
  | name {p : String} (h : Relation.reverse (Relation.reverse p) = p) : IsBinary (ofName p)
  | chain (x : String) {links : List Formula} (h : ∀ b ∈ links, IsBinary b) :
    IsBinary (lambda x (links.foldr join (var x)))

mutual
/-- **The relation that a formula denotes**, if names denote the given ones. -/
def denotes (names : String → α → α → Prop) : Formula → α → α → Prop
  | value v =>
    match v with
    | .name id _ => names id
    | _ => fun _ _ => False
  | lambda x body => denotesBelow names x body
  | _ => fun _ _ => False
/-- The relation that a chain of joins denotes below the lambda that binds the variable at its end. -/
def denotesBelow (names : String → α → α → Prop) (x : String) : Formula → α → α → Prop
  | join r c => Relation.Comp (denotes names r) (denotesBelow names x c)
  | var y => fun a b => y = x ∧ a = b
  | _ => fun _ _ => False
end

/-- **A chain denotes the composition of its links.** -/
theorem denotes_lambda (names : String → α → α → Prop) (x : String) (links : List Formula) :
    denotes names (lambda x (links.foldr join (var x))) = composition (links.map (denotes names)) := by
  rw [denotes]
  induction links with
  | nil =>
    funext y z
    simp [denotesBelow, composition]
  | cons b links ih =>
    show denotesBelow names x (join b (links.foldr join (var x))) = _
    rw [denotesBelow, ih]
    rfl

/-! ## Reversal -/

/-- The links of a chain are put in front of what there is already, the first one innermost. -/
theorem reverseChain_foldr (x : String) (links : List Formula) (result : Formula) :
    reverseChain (links.foldr join (var x)) result =
      some ((links.map reverseBinary).reverse.foldr join result) := by
  induction links generalizing result with
  | nil => rfl
  | cons b links ih =>
    show reverseChain (join b (links.foldr join (var x))) result = _
    rw [reverseChain, ih, List.map_cons, List.reverse_cons, List.foldr_append]
    rfl

/-- **A reversed chain** has the reversed links in the opposite order. -/
theorem reverseBinary_lambda (x : String) (links : List Formula) :
    reverseBinary (lambda x (links.foldr join (var x))) =
      lambda x ((links.map reverseBinary).reverse.foldr join (var x)) := by
  rw [reverseBinary, reverseChain_foldr]

theorem reverseBinary_ofName (p : String) : reverseBinary (ofName p) = ofName (Relation.reverse p) := by
  rw [ofName, Value.ofName, reverseBinary]

/-- Reversed twice, a binary is what it was. -/
theorem IsBinary.reverseBinary_reverseBinary {b : Formula} (hb : IsBinary b) :
    reverseBinary (reverseBinary b) = b := by
  induction hb with
  | name h => rw [reverseBinary_ofName, reverseBinary_ofName, h]
  | @chain x links _ ih =>
    have hlinks : (links.map reverseBinary).map reverseBinary = links := by
      rw [List.map_map]
      exact (List.map_congr_left ih).trans (List.map_id links)
    rw [reverseBinary_lambda, reverseBinary_lambda, List.map_reverse, List.reverse_reverse, hlinks]

/-- **A reversed binary denotes the converse.** -/
theorem IsBinary.denotes_reverseBinary {b : Formula} (hb : IsBinary b) {names : String → α → α → Prop}
    (hnames : ∀ p, Relation.reverse (Relation.reverse p) = p → names (Relation.reverse p) = flip (names p)) :
    denotes names (reverseBinary b) = flip (denotes names b) := by
  induction hb with
  | @name p h =>
    rw [reverseBinary_ofName]
    simpa [denotes, ofName, Value.ofName] using hnames p h
  | @chain x links _ ih =>
    have hlinks : (links.map reverseBinary).map (denotes names) = (links.map (denotes names)).map flip := by
      rw [List.map_map, List.map_map]
      exact List.map_congr_left ih
    rw [reverseBinary_lambda, denotes_lambda, denotes_lambda, flip_composition, List.map_reverse, hlinks]

/-- **Reversing a binary gives its converse.** Reversed twice, a binary is what it was; and wherever the reverse of a
name denotes the converse of what the name denotes, a reversed binary denotes the converse of the binary. -/
theorem reverseBinary_converse {b : Formula} (hb : IsBinary b) :
    reverseBinary (reverseBinary b) = b ∧
      ∀ (α : Type u) (names : String → α → α → Prop),
        (∀ p, Relation.reverse (Relation.reverse p) = p →
          ∀ y z, names (Relation.reverse p) y z ↔ names p z y) →
        ∀ y z, denotes names (reverseBinary b) y z ↔ denotes names b z y := by
  refine ⟨hb.reverseBinary_reverseBinary, ?_⟩
  intro α names hnames y z
  have hflip : ∀ p, Relation.reverse (Relation.reverse p) = p → names (Relation.reverse p) = flip (names p) := by
    intro p hp
    funext v w
    exact propext (hnames p hp v w)
  rw [hb.denotes_reverseBinary hflip]
  rfl

/-- Whose child was born where. One link is a chain of its own, and its name is marked as reversed. -/
def bornToParent : Formula :=
  lambda "x" ([ofName "fb:people.person.children",
    lambda "y" ([ofName "!fb:location.location.people_born_here"].foldr join (var "y"))].foldr join (var "x"))

/-- Who has a child, and who was born where. -/
def bornFacts : List (String × String × String) :=
  [("fb:people.person.children", "ann", "bob"), ("fb:location.location.people_born_here", "paris", "bob")]

/-- What a name denotes by these facts, also if it is the reverse of a name in one of them. -/
def bornNames (p y z : String) : Prop := (p, y, z) ∈ bornFacts ∨ (Relation.reverse p, z, y) ∈ bornFacts

theorem reverseBinary_converse_sample :
    IsBinary bornToParent ∧
      (∀ p, Relation.reverse (Relation.reverse p) = p →
        ∀ y z, bornNames (Relation.reverse p) y z ↔ bornNames p z y) ∧
      reverseBinary bornToParent =
        lambda "x" (join (lambda "y" (join (ofName "fb:location.location.people_born_here") (var "y")))
          (join (ofName "!fb:people.person.children") (var "x"))) ∧
      reverseBinary (reverseBinary bornToParent) = bornToParent ∧
      denotes bornNames bornToParent "ann" "paris" ∧
      denotes bornNames (reverseBinary bornToParent) "paris" "ann" := by
  have hbinary : IsBinary bornToParent := by
    refine .chain "x" ?_
    intro b hb
    have hmem : b = ofName "fb:people.person.children" ∨
        b = lambda "y" ([ofName "!fb:location.location.people_born_here"].foldr join (var "y")) := by
      simpa using hb
    rcases hmem with rfl | rfl
    · exact .name (by decide)
    · refine .chain "y" ?_
      simpa using IsBinary.name (by decide)
  have hnames : ∀ p, Relation.reverse (Relation.reverse p) = p →
      ∀ y z, bornNames (Relation.reverse p) y z ↔ bornNames p z y := by
    intro p hp y z
    rw [bornNames, bornNames, hp, or_comm]
  have hden : denotes bornNames bornToParent "ann" "paris" := by
    have hchild : bornNames "fb:people.person.children" "ann" "bob" := .inl (by decide)
    have hborn : bornNames "!fb:location.location.people_born_here" "bob" "paris" := .inr (by decide)
    rw [bornToParent, denotes_lambda]
    refine ⟨"bob", hchild, "paris", ?_, rfl⟩
    rw [denotes_lambda]
    exact ⟨"paris", hborn, rfl⟩
  obtain ⟨htwice, hconverse⟩ := reverseBinary_converse hbinary
  exact ⟨hbinary, hnames, rfl, htwice, hden, (hconverse String bornNames hnames "paris" "ann").mpr hden⟩

end Parlance.Formula
