import Mathlib.Data.List.Basic
import Parlance.Formula.Substitution
import Parlance.Proofs.Fold

/-!
# `Proofs.Subformulas` — formulas by their immediate subformulas

Most kinds of formulas are alike to whoever walks through a formula: what is done to them is done to their immediate
subformulas. Only variables and lambdas have a part in binding, and only joins are reduced. So a fact about formulas
is proved by induction over the immediate subformulas, with variables and lambdas told apart, and each walk is one
equation for all the other kinds.

## Contents
- **Subformulas.** `subformulas`, `children_induction` and `binding_induction`.
- **Other subformulas in their place.** `withChildren`.
- **Walks.** `hasFree`, `freeOccurrences`, `substitute` and `reduce?` in terms of `children`.
-/

namespace Parlance.Formula

/-! ## Subformulas -/

/-- The formula and all formulas below it. -/
def subformulas (f : Formula) : List Formula := f.visit fun _ => false

theorem mem_subformulas {f g : Formula} :
    g ∈ f.subformulas ↔ g = f ∨ ∃ c ∈ f.children, g ∈ c.subformulas := by
  rw [subformulas, visit]
  simp [subformulas]

theorem mem_subformulas_self (f : Formula) : f ∈ f.subformulas := mem_subformulas.mpr (.inl rfl)

/-- Whether a formula has no part in binding: it is neither a variable nor a lambda. -/
def isNeutral : Formula → Bool
  | var _ => false
  | lambda _ _ => false
  | _ => true

/-- Whether a formula is a join. -/
def isJoin : Formula → Bool
  | join _ _ => true
  | _ => false

theorem exists_of_isJoin {f : Formula} (h : f.isJoin = true) : ∃ r c, f = join r c := by
  cases f with
  | join r c => exact ⟨r, c, rfl⟩
  | _ => cases h

/-- **Induction over the immediate subformulas.** -/
@[elab_as_elim]
theorem children_induction {motive : Formula → Prop} (step : ∀ f, (∀ c ∈ f.children, motive c) → motive f)
    (f : Formula) : motive f :=
  step f fun c _ => children_induction step c
termination_by sizeOf f
decreasing_by exact sizeOf_lt_of_mem_children ‹_›

/-- Induction over the immediate subformulas, with variables and lambdas told apart. -/
@[elab_as_elim]
theorem binding_induction {motive : Formula → Prop} (var : ∀ x, motive (var x))
    (lambda : ∀ x b, motive b → motive (lambda x b))
    (neutral : ∀ f, f.isNeutral = true → (∀ c ∈ f.children, motive c) → motive f) (f : Formula) : motive f := by
  induction f using children_induction with
  | step f ih =>
    cases f with
    | var x => exact var x
    | lambda x b => exact lambda x b (ih b (by simp [children]))
    | _ => exact neutral _ rfl ih

/-! ## Other subformulas in their place -/

/-- The formula of the same kind over other immediate subformulas, if they are as many as it has. -/
def withChildren : Formula → List Formula → Formula
  | join _ _, [r, c] => join r c
  | merge m _ _, [a, b] => merge m a b
  | not _, [c] => not c
  | lambda x _, [b] => lambda x b
  | mark x _, [b] => mark x b
  | reverse _, [c] => reverse c
  | aggregate m _, [c] => aggregate m c
  | arithmetic m _ _, [a, b] => arithmetic m a b
  | superlative m _ _ _ _, [r, k, h, s] => superlative m r k h s
  | call _ _, f :: as => call f as
  | f, _ => f

variable {f : Formula} {cs : List Formula}

theorem children_withChildren (h : cs.length = f.children.length) : (f.withChildren cs).children = cs := by
  cases f with
  | value v | var x => exact (List.length_eq_zero_iff.mp h).symm
  | not c | lambda x b | mark x b | reverse c | aggregate m c =>
    obtain ⟨c, rfl⟩ := List.length_eq_one_iff.mp h
    rfl
  | join r c | merge m a b | arithmetic m a b =>
    obtain ⟨c, d, rfl⟩ := List.length_eq_two.mp h
    rfl
  | superlative m r k t s =>
    obtain ⟨c, d, e, g, rfl⟩ := List.length_eq_four.mp h
    rfl
  | call g as =>
    obtain ⟨c, cs, rfl⟩ := List.exists_cons_of_length_eq_add_one h
    rfl

/-- What was in their place before does not matter. -/
theorem withChildren_withChildren {ds : List Formula} (hc : cs.length = f.children.length)
    (hd : ds.length = f.children.length) : (f.withChildren cs).withChildren ds = f.withChildren ds := by
  cases f with
  | value v | var x => rfl
  | not c | lambda x b | mark x b | reverse c | aggregate m c =>
    obtain ⟨c, rfl⟩ := List.length_eq_one_iff.mp hc
    obtain ⟨d, rfl⟩ := List.length_eq_one_iff.mp hd
    rfl
  | join r c | merge m a b | arithmetic m a b =>
    obtain ⟨c, c', rfl⟩ := List.length_eq_two.mp hc
    obtain ⟨d, d', rfl⟩ := List.length_eq_two.mp hd
    rfl
  | superlative m r k t s =>
    obtain ⟨c, c', e, e', rfl⟩ := List.length_eq_four.mp hc
    obtain ⟨d, d', g, g', rfl⟩ := List.length_eq_four.mp hd
    rfl
  | call g as =>
    obtain ⟨c, cs, rfl⟩ := List.exists_cons_of_length_eq_add_one hc
    obtain ⟨d, ds, rfl⟩ := List.exists_cons_of_length_eq_add_one hd
    rfl

theorem isNeutral_withChildren (cs : List Formula) : (f.withChildren cs).isNeutral = f.isNeutral := by
  unfold withChildren
  split <;> rfl

theorem isJoin_withChildren (cs : List Formula) : (f.withChildren cs).isJoin = f.isJoin := by
  unfold withChildren
  split <;> rfl

@[simp] theorem withChildren_children (f : Formula) : f.withChildren f.children = f := by
  cases f <;> rfl

/-! ## Walks -/

theorem anyHasFree_eq (x : String) (as : List Formula) : anyHasFree x as = as.any (hasFree x) := by
  induction as with
  | nil => rfl
  | cons a as ih => rw [anyHasFree, List.any_cons, ih]

theorem freeOccurrencesOfAll_eq (bound : List String) (as : List Formula) :
    freeOccurrencesOfAll bound as = as.flatMap (freeOccurrences bound) := by
  induction as with
  | nil => rfl
  | cons a as ih => rw [freeOccurrencesOfAll, List.flatMap_cons, ih]

theorem substituteAll_eq (x : String) (replacement : Formula) (as : List Formula) :
    substituteAll x replacement as = as.map (substitute x replacement) := by
  induction as with
  | nil => rfl
  | cons a as ih => rw [substituteAll, List.map_cons, ih]

theorem hasFree_of_isNeutral (x : String) (h : f.isNeutral = true) :
    hasFree x f = f.children.any (hasFree x) := by
  cases f with
  | var y | lambda y b => cases h
  | _ => simp [hasFree, children, anyHasFree_eq, Bool.or_assoc]

theorem freeOccurrences_of_isNeutral (bound : List String) (h : f.isNeutral = true) :
    freeOccurrences bound f = f.children.flatMap (freeOccurrences bound) := by
  cases f with
  | var y | lambda y b => cases h
  | _ => simp [freeOccurrences, children, freeOccurrencesOfAll_eq]

theorem substitute_of_isNeutral (x : String) (replacement : Formula) (h : f.isNeutral = true) :
    substitute x replacement f = f.withChildren (f.children.map (substitute x replacement)) := by
  cases f with
  | var y | lambda y b => cases h
  | _ => simp [substitute, children, withChildren, substituteAll_eq]

theorem isNeutral_substitute (x : String) (replacement : Formula) (h : f.isNeutral = true) :
    (substitute x replacement f).isNeutral = true := by
  rw [substitute_of_isNeutral x replacement h, isNeutral_withChildren, h]

theorem children_substitute (x : String) (replacement : Formula) (h : f.isNeutral = true) :
    (substitute x replacement f).children = f.children.map (substitute x replacement) := by
  rw [substitute_of_isNeutral x replacement h, children_withChildren (List.length_map _)]

/-- **A join is reduced** by applying the lambda to which its relation is reduced, if it is reduced to one. -/
theorem reduce?_join {fuel : Nat} {r c g : Formula} :
    reduce? (fuel + 1) (join r c) = some g ↔
      ∃ r', reduce? fuel r = some r' ∧
        ((∃ x body, r' = lambda x body ∧ reduce? fuel (substitute x c body) = some g) ∨
          ((∀ x body, r' ≠ lambda x body) ∧ ∃ c', reduce? fuel c = some c' ∧ join r' c' = g)) := by
  simp only [reduce?, Option.bind_eq_bind, Option.bind_eq_some_iff]
  refine exists_congr fun r' => and_congr_right fun _ => ?_
  cases r' <;> simp [appliedTo?, Option.bind_eq_some_iff]

/-- Whatever is not a join is reduced by reducing its immediate subformulas. -/
theorem reduce?_of_not_isJoin {fuel : Nat} {g : Formula} (h : f.isJoin = false) :
    reduce? (fuel + 1) f = some g ↔
      ∃ cs, List.Forall₂ (fun c c' => reduce? fuel c = some c') f.children cs ∧ f.withChildren cs = g := by
  cases f with
  | join r c => cases h
  | _ =>
    simp [reduce?, children, withChildren, Option.bind_eq_some_iff, mapM_eq_some_iff, List.forall₂_cons_left_iff,
      ← exists_and_right, ← exists_and_left, and_assoc]

end Parlance.Formula
