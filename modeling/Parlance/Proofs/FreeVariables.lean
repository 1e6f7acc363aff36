import Parlance.Proofs.SortedSets
import Parlance.Proofs.Subformulas

/-!
# `Proofs.FreeVariables` — free variables and closed substitution

Whether a variable is free, which variables are free, and where a replacement is put are found out by three walks of
their own. They agree on what binds: a lambda binds its variable below it, and a mark binds nothing.

A closed formula has no free variables. To put it in the place of a variable takes that variable away and adds none,
and two variables can be replaced in either order.

## Contents
- **Free variables.** `mem_freeOccurrences`, and so `mem_freeVars`.
- **Substitution.** `substitute_of_not_free`, and for closed replacements `hasFree_substitute` and
  `substitute_comm`.
- **The laws**, together: `freeVars_laws`.
-/

namespace Parlance.Formula

variable {x y v : String} {a b f : Formula}

/-! ## Free variables -/

/-- The free occurrences outside of some bound variables are those of the other free variables. -/
theorem mem_freeOccurrences (bound : List String) :
    v ∈ freeOccurrences bound f ↔ hasFree v f = true ∧ v ∉ bound := by
  induction f using binding_induction generalizing bound with
  | var x =>
    simp only [freeOccurrences, hasFree, beq_iff_eq]
    split <;> grind
  | lambda x b ih =>
    simp only [freeOccurrences, hasFree, ih, Bool.and_eq_true, bne_iff_ne, List.mem_cons, not_or]
    grind
  | neutral f hf ih =>
    rw [freeOccurrences_of_isNeutral bound hf, hasFree_of_isNeutral v hf, List.mem_flatMap, List.any_eq_true]
    constructor
    · rintro ⟨c, hc, hv⟩
      have hfree := (ih c hc bound).mp hv
      exact ⟨⟨c, hc, hfree.1⟩, hfree.2⟩
    · rintro ⟨⟨c, hc, hv⟩, hbound⟩
      exact ⟨c, hc, (ih c hc bound).mpr ⟨hv, hbound⟩⟩

theorem mem_freeVars : v ∈ f.freeVars ↔ hasFree v f = true := by
  simp [freeVars, mem_freeOccurrences]

/-- A closed formula has no free variables. -/
theorem hasFree_of_closed (h : f.freeVars = []) (v : String) : hasFree v f = false := by
  have hv : v ∉ f.freeVars := by simp [h]
  simpa [mem_freeVars] using hv

/-- Formulas have the same free variables if the same variables are free in them. -/
theorem freeVars_congr {g : Formula} (h : ∀ v, hasFree v f = hasFree v g) : f.freeVars = g.freeVars := by
  refine sortedNames_congr fun v => ?_
  simp [mem_freeOccurrences, h v]

/-- One variable less is free. -/
theorem freeVars_erase {g : Formula} (h : ∀ v, hasFree v g = (v != x && hasFree v f)) :
    g.freeVars = f.freeVars.filter (· != x) := by
  rw [freeVars, freeVars, ← sortedNames_filter]
  refine sortedNames_congr fun v => ?_
  simp [mem_freeOccurrences, h v, and_comm]

/-! ## Substitution -/

/-- Nothing is put in the place of a variable that does not occur free. -/
theorem substitute_of_not_free (replacement f : Formula) (h : hasFree x f = false) :
    substitute x replacement f = f := by
  induction f using binding_induction with
  | var y =>
    have hne : y ≠ x := by simpa [hasFree] using h
    rw [substitute, if_neg hne]
  | lambda y b ih =>
    rw [substitute]
    split
    · rfl
    · rename_i hne
      rw [ih (by simpa [hasFree, hne] using h)]
  | neutral f hf ih =>
    rw [hasFree_of_isNeutral x hf, List.any_eq_false] at h
    have hchildren : f.children.map (substitute x replacement) = f.children := by
      conv_rhs => rw [← List.map_id f.children]
      refine List.map_congr_left fun c hc => ?_
      exact ih c hc (by simpa using h c hc)
    rw [substitute_of_isNeutral x replacement hf, hchildren, withChildren_children]

/-- **To put a closed formula in the place of a variable** takes that variable away and adds none. -/
theorem hasFree_substitute (ha : a.freeVars = []) (v : String) :
    hasFree v (substitute x a f) = (v != x && hasFree v f) := by
  induction f using binding_induction with
  | var y =>
    by_cases hy : y = x
    · subst hy
      simp only [substitute, if_pos, hasFree_of_closed ha, hasFree]
      grind
    · simp only [substitute, if_neg hy, hasFree]
      grind
  | lambda y b ih =>
    by_cases hy : y = x
    · subst hy
      simp only [substitute, if_pos, hasFree]
      grind
    · simp only [substitute, if_neg hy, hasFree, ih]
      grind
  | neutral f hf ih =>
    rw [hasFree_of_isNeutral v (isNeutral_substitute x a hf), children_substitute x a hf, hasFree_of_isNeutral v hf,
      List.any_map, Bool.eq_iff_iff]
    simp only [List.any_eq_true, Function.comp, Bool.and_eq_true]
    constructor
    · rintro ⟨c, hc, hv⟩
      rw [ih c hc, Bool.and_eq_true] at hv
      exact ⟨hv.1, c, hc, hv.2⟩
    · rintro ⟨hne, c, hc, hv⟩
      refine ⟨c, hc, ?_⟩
      rw [ih c hc, hne, hv]
      rfl

/-- **Closed formulas** are put in the place of two variables in either order. -/
theorem substitute_comm (hxy : x ≠ y) (ha : a.freeVars = []) (hb : b.freeVars = []) :
    substitute y b (substitute x a f) = substitute x a (substitute y b f) := by
  induction f using binding_induction with
  | var z =>
    by_cases hx : z = x
    · subst hx
      simp [substitute, hxy, substitute_of_not_free b a (hasFree_of_closed ha y)]
    · by_cases hy : z = y
      · subst hy
        simp [substitute, hx, substitute_of_not_free a b (hasFree_of_closed hb x)]
      · simp [substitute, hx, hy]
  | lambda z c ih =>
    by_cases hx : z = x
    · subst hx
      simp [substitute, hxy]
    · by_cases hy : z = y
      · subst hy
        simp [substitute, hx]
      · simp [substitute, hx, hy, ih]
  | neutral f hf ih =>
    have htwice : ∀ {z z' : String} {d d' : Formula}, substitute z' d' (substitute z d f) =
        f.withChildren (f.children.map fun c => substitute z' d' (substitute z d c)) := by
      intro z z' d d'
      rw [substitute_of_isNeutral z' d' (isNeutral_substitute z d hf), children_substitute z d hf, List.map_map,
        substitute_of_isNeutral z d hf, withChildren_withChildren (List.length_map _) (List.length_map _)]
      rfl
    rw [htwice, htwice, List.map_congr_left ih]

/-! ## The laws -/

/-- **Free variables and closed substitution.** The variables that occur free are the free variables; nothing is put
in the place of any other; a closed formula takes the place of a variable and of no other; and two of them come in
either order. A lambda binds its variable, a mark binds nothing. -/
theorem freeVars_laws (f : Formula) {x y : String} {a b : Formula} (hxy : x ≠ y) (ha : a.freeVars = [])
    (hb : b.freeVars = []) :
    (∀ v, hasFree v f = true ↔ v ∈ f.freeVars) ∧
      (∀ v replacement, v ∉ f.freeVars → substitute v replacement f = f) ∧
      (substitute x a f).freeVars = f.freeVars.filter (· != x) ∧
      substitute y b (substitute x a f) = substitute x a (substitute y b f) ∧
      (∀ v, (lambda v f).freeVars = f.freeVars.filter (· != v) ∧ (mark v f).freeVars = f.freeVars) ∧
      ∀ v replacement, substitute v replacement (lambda v f) = lambda v f ∧
        substitute v replacement (mark v f) = mark v (substitute v replacement f) := by
  refine ⟨fun v => mem_freeVars.symm, ?_, freeVars_erase (hasFree_substitute ha), substitute_comm hxy ha hb, ?_, ?_⟩
  · intro v replacement hv
    exact substitute_of_not_free replacement f (by simpa [mem_freeVars] using hv)
  · intro v
    refine ⟨freeVars_erase fun w => ?_, freeVars_congr fun w => rfl⟩
    rw [hasFree, bne_comm]
  · intro v replacement
    exact ⟨if_pos rfl, rfl⟩

/-- A variable below a mark of its name, another one, and two that lambdas bind. -/
def boundAndFree : Formula :=
  lambda "z" (join (mark "x" (var "x")) (call (var "y") [lambda "x" (var "x"), var "z"]))

theorem freeVars_laws_sample :
    "x" ≠ "y" ∧ (ofString "a").freeVars = [] ∧ (ofString "b").freeVars = [] ∧
      boundAndFree.freeVars = ["x", "y"] ∧ (substitute "x" (ofString "a") boundAndFree).freeVars = ["y"] ∧
      substitute "y" (ofString "b") (substitute "x" (ofString "a") boundAndFree) =
        lambda "z" (join (mark "x" (ofString "a")) (call (ofString "b") [lambda "x" (var "x"), var "z"])) := by
  have hclosed : ∀ text, (ofString text).freeVars = [] := by
    simp [freeVars, ofString, freeOccurrences, sortedNames, sortedSet, dropRepeats]
  have hfree : boundAndFree.freeVars = ["x", "y"] := by
    simp [boundAndFree, freeVars, freeOccurrences, freeOccurrencesOfAll, sortedNames, sortedSet, dropRepeats,
      List.mergeSort]
  obtain ⟨-, -, hsubst, hcomm, -⟩ :=
    freeVars_laws boundAndFree (by decide : "x" ≠ "y") (hclosed "a") (hclosed "b")
  rw [hfree] at hsubst
  refine ⟨by decide, hclosed "a", hclosed "b", hfree, hsubst.trans (by decide), ?_⟩
  rw [hcomm]
  rfl

end Parlance.Formula
