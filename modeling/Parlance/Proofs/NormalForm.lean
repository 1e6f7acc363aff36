import Parlance.Proofs.Subformulas

/-!
# `Proofs.NormalForm` — what a reduction ends with

A reduction puts arguments that are not reduced yet into bodies that are, and so makes new joins for which there are
lambdas to apply. It goes on until there is none left, at any depth: its result is normal. So a second reduction
finds nothing to do, and it needs no more nested steps than the first one was given.

## Contents
- **Normal formulas.** `IsNormal`, by the kinds of formulas.
- **Nested steps.** `reduce?_mono`: more of them than needed make no difference.
- **The result.** `isNormal_reduce?` and `reduce?_reduce?`, and both together for every reduction.
-/

namespace Parlance.Formula

variable {f g r c : Formula} {n m : Nat}

/-! ## Normal formulas -/

/-- **Normal**: at no depth is there a join whose relation is a lambda. -/
def IsNormal (f : Formula) : Prop := ∀ r c, join r c ∈ f.subformulas → ∀ x b, r ≠ lambda x b

theorem isNormal_join :
    (join r c).IsNormal ↔ (∀ x b, r ≠ lambda x b) ∧ r.IsNormal ∧ c.IsNormal := by
  constructor
  · intro h
    refine ⟨h r c (mem_subformulas_self _), ?_, ?_⟩
    · intro s d hs
      exact h s d (mem_subformulas.mpr (.inr ⟨r, by simp [children], hs⟩))
    · intro s d hs
      exact h s d (mem_subformulas.mpr (.inr ⟨c, by simp [children], hs⟩))
  · rintro ⟨hne, hr, hc⟩ s d hs
    rcases mem_subformulas.mp hs with heq | ⟨e, he, hs⟩
    · obtain ⟨rfl, rfl⟩ := join.inj heq
      exact hne
    · have hmem : e = r ∨ e = c := by simpa [children] using he
      rcases hmem with heq | heq
      · exact hr s d (heq ▸ hs)
      · exact hc s d (heq ▸ hs)

theorem isNormal_of_not_isJoin (h : f.isJoin = false) : f.IsNormal ↔ ∀ c ∈ f.children, c.IsNormal := by
  constructor
  · intro hf c hc s d hs
    exact hf s d (mem_subformulas.mpr (.inr ⟨c, hc, hs⟩))
  · intro hf s d hs
    rcases mem_subformulas.mp hs with rfl | ⟨e, he, hs⟩
    · cases h
    · exact hf e he s d hs

/-! ## Nested steps -/

/-- **Induction over a reduction**: a join whose relation becomes a lambda goes on with the body, any other join stays
one, and every other formula stays as it is around what its immediate subformulas become. -/
theorem reduce?_induction {motive : Nat → Formula → Formula → Prop}
    (apply : ∀ n r c x b g, reduce? n r = some (lambda x b) → motive n r (lambda x b) →
      reduce? n (substitute x c b) = some g → motive n (substitute x c b) g → motive (n + 1) (join r c) g)
    (join : ∀ n r c r' c', (∀ x b, r' ≠ lambda x b) → reduce? n r = some r' → motive n r r' →
      reduce? n c = some c' → motive n c c' → motive (n + 1) (join r c) (join r' c'))
    (other : ∀ n f cs, f.isJoin = false →
      List.Forall₂ (fun c c' => reduce? n c = some c' ∧ motive n c c') f.children cs →
      motive (n + 1) f (f.withChildren cs))
    (h : reduce? n f = some g) : motive n f g := by
  induction n generalizing f g with
  | zero => cases h
  | succ n ih =>
    by_cases hf : f.isJoin = true
    · obtain ⟨r, c, rfl⟩ := exists_of_isJoin hf
      obtain ⟨r', hr, ⟨x, b, rfl, hb⟩ | ⟨hne, c', hc, rfl⟩⟩ := reduce?_join.mp h
      · exact apply n r c x b g hr (ih hr) hb (ih hb)
      · exact join n r c r' c' hne hr (ih hr) hc (ih hc)
    · rw [Bool.not_eq_true] at hf
      obtain ⟨cs, hcs, rfl⟩ := (reduce?_of_not_isJoin hf).mp h
      exact other n f cs hf (hcs.imp fun _ _ hc => ⟨hc, ih hc⟩)

theorem reduce?_succ (h : reduce? n f = some g) : reduce? (n + 1) f = some g := by
  refine reduce?_induction (motive := fun n f g => reduce? (n + 1) f = some g) ?apply ?join ?other h
  case apply =>
    intro n r c x b g _ hr _ hb
    exact reduce?_join.mpr ⟨_, hr, .inl ⟨x, b, rfl, hb⟩⟩
  case join =>
    intro n r c r' c' hne _ hr _ hc
    exact reduce?_join.mpr ⟨r', hr, .inr ⟨hne, c', hc, rfl⟩⟩
  case other =>
    intro n f cs hf hcs
    exact (reduce?_of_not_isJoin hf).mpr ⟨cs, hcs.imp fun _ _ hc => hc.2, rfl⟩

/-- **More nested steps** than a reduction needs make no difference. -/
theorem reduce?_mono (h : reduce? n f = some g) (hle : n ≤ m) : reduce? m f = some g := by
  induction hle with
  | refl => exact h
  | step _ ih => exact reduce?_succ ih

/-- A formula is reduced to one formula only, however many nested steps there are. -/
theorem reduce?_unique {g' : Formula} (h : reduce? n f = some g) (h' : reduce? m f = some g') : g = g' := by
  have hg := reduce?_mono h (Nat.le_max_left n m)
  have hg' := reduce?_mono h' (Nat.le_max_right n m)
  exact Option.some.inj (hg.symm.trans hg')

/-- What is neither a variable nor a lambda nor a join is not reduced to one either. -/
theorem isNeutral_reduce? (hneutral : f.isNeutral = true) (hjoin : f.isJoin = false) (h : reduce? n f = some g) :
    g.isNeutral = true := by
  obtain ⟨cs, -, rfl⟩ := (reduce?_of_not_isJoin hjoin).mp (reduce?_succ h)
  rw [isNeutral_withChildren, hneutral]

/-! ## The result -/

/-- **What a reduction ends with is normal.** -/
theorem isNormal_reduce? (h : reduce? n f = some g) : g.IsNormal := by
  refine reduce?_induction (motive := fun _ _ g => g.IsNormal) ?apply ?join ?other h
  case apply =>
    intro n r c x b g _ _ _ hg
    exact hg
  case join =>
    intro n r c r' c' hne _ hr _ hc
    exact isNormal_join.mpr ⟨hne, hr, hc⟩
  case other =>
    intro n f cs hf hcs
    rw [isNormal_of_not_isJoin (by rw [isJoin_withChildren, hf]), children_withChildren hcs.length_eq.symm]
    exact forall_of_forall₂ hcs

/-- **The result of a reduction** is reduced to itself, in no more nested steps. -/
theorem reduce?_reduce? (h : reduce? n f = some g) : reduce? n g = some g := by
  refine reduce?_induction (motive := fun n _ g => reduce? n g = some g) ?apply ?join ?other h
  case apply =>
    intro n r c x b g _ _ _ hg
    exact reduce?_succ hg
  case join =>
    intro n r c r' c' hne _ hr _ hc
    exact reduce?_join.mpr ⟨r', hr, .inr ⟨hne, c', hc, rfl⟩⟩
  case other =>
    intro n f cs hf hcs
    have hlength : cs.length = f.children.length := hcs.length_eq.symm
    rw [reduce?_of_not_isJoin (by rw [isJoin_withChildren, hf]), children_withChildren hlength]
    exact ⟨cs, List.forall₂_same.mpr (forall_of_forall₂ hcs), withChildren_withChildren hlength hlength⟩

/-- **Beta normal form.** If a formula is reduced at all, then at no depth of its result is there a join whose
relation is a lambda, and a reduction leaves the result as it is. -/
theorem normal_form_of_reduce? (h : reduce? n f = some g) :
    (∀ r c, join r c ∈ g.subformulas → ∀ x b, r ≠ lambda x b) ∧ ∀ m, n ≤ m → reduce? m g = some g := by
  refine ⟨isNormal_reduce? h, ?_⟩
  intro m hle
  exact reduce?_mono (reduce?_reduce? h) hle

/-- A lambda that takes its argument into a relation, where there is another lambda to apply then. -/
def laterApplied : Formula :=
  join (lambda "f" (not (join (var "f") (ofString "a")))) (lambda "x" (mark "y" (join (var "x") (var "y"))))

theorem normal_form_of_reduce?_sample :
    reduce? 7 laterApplied = some (not (mark "y" (join (ofString "a") (var "y")))) ∧
      (∀ r c, join r c ∈ (not (mark "y" (join (ofString "a") (var "y")))).subformulas →
        ∀ x b, r ≠ lambda x b) ∧
      ∀ m, 7 ≤ m → reduce? m (not (mark "y" (join (ofString "a") (var "y")))) =
        some (not (mark "y" (join (ofString "a") (var "y")))) := by
  have hreduced : reduce? 7 laterApplied = some (not (mark "y" (join (ofString "a") (var "y")))) := rfl
  exact ⟨hreduced, normal_form_of_reduce? hreduced⟩

end Parlance.Formula
