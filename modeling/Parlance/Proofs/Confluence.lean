import Mathlib.Logic.Relation

/-!
# `Proofs.Confluence` — the order of reductions does not matter

Formulas without their names: a variable that a lambda binds is the number of lambdas between it and that one, and so
nothing can be captured. A lambda keeps the name that it was written with, but for nothing than to give it back.
What formulas are built with besides lambdas and joins is a constant or a pair, and stays as it is.

Parallel reduction applies any of the lambdas that are applied in a term at once. The most that one such step can do
is to apply them all, and whatever another step leaves out can be made up for by one more step; so steps from one term
can always be brought together again, and a term has at most one normal form.

## Contents
- **Terms.** `Term`, `shift` and `subst`, and how these two commute.
- **Parallel reduction.** `Par`, which is stable under both.
- **Confluence.** `develop`, `par_develop`, and `normal_unique`.
-/

namespace Parlance

variable {κ : Type}

/-! ## Terms -/

/-- A term over constants of type `κ`. -/
inductive Term (κ : Type) where
  | index (i : Nat)
  | const (k : κ)
  | pair (first second : Term κ)
  | app (function argument : Term κ)
  | lam (name : String) (body : Term κ)

namespace Term

/-- Makes room for a lambda outside: the indexes from `c` on go up by one. -/
def shift (c : Nat) : Term κ → Term κ
  | index i => if i < c then index i else index (i + 1)
  | const k => const k
  | pair t u => pair (shift c t) (shift c u)
  | app t u => app (shift c t) (shift c u)
  | lam x t => lam x (shift (c + 1) t)

/-- Puts a term in the place of the index `j`, which goes away. -/
def subst (j : Nat) (s : Term κ) : Term κ → Term κ
  | index i => if i < j then index i else if i = j then s else index (i - 1)
  | const k => const k
  | pair t u => pair (subst j s t) (subst j s u)
  | app t u => app (subst j s t) (subst j s u)
  | lam x t => lam x (subst (j + 1) (shift 0 s) t)

theorem shift_shift (t : Term κ) {c d : Nat} (h : c ≤ d) :
    shift c (shift d t) = shift (d + 1) (shift c t) := by
  induction t generalizing c d with
  | index i => grind [shift]
  | const k => rfl
  | pair t u iht ihu => rw [shift, shift, shift, shift, iht h, ihu h]
  | app t u iht ihu => rw [shift, shift, shift, shift, iht h, ihu h]
  | lam x t ih => rw [shift, shift, shift, shift, ih (by omega)]

theorem shift_subst_of_le (t : Term κ) {c j : Nat} {s : Term κ} (h : c ≤ j) :
    shift c (subst j s t) = subst (j + 1) (shift c s) (shift c t) := by
  induction t generalizing c j s with
  | index i => grind [shift, subst]
  | const k => rfl
  | pair t u iht ihu => rw [subst, shift, shift, subst, iht h, ihu h]
  | app t u iht ihu => rw [subst, shift, shift, subst, iht h, ihu h]
  | lam x t ih => rw [subst, shift, shift, subst, ih (by omega), shift_shift s (Nat.zero_le c)]

theorem shift_subst_of_ge (t : Term κ) {c j : Nat} {s : Term κ} (h : j ≤ c) :
    shift c (subst j s t) = subst j (shift c s) (shift (c + 1) t) := by
  induction t generalizing c j s with
  | index i => grind [shift, subst]
  | const k => rfl
  | pair t u iht ihu => rw [subst, shift, shift, subst, iht h, ihu h]
  | app t u iht ihu => rw [subst, shift, shift, subst, iht h, ihu h]
  | lam x t ih => rw [subst, shift, shift, subst, ih (by omega), shift_shift s (Nat.zero_le c)]

/-- Nothing is put in the place of an index for which room has only just been made. -/
@[simp] theorem subst_shift (t : Term κ) (j : Nat) (s : Term κ) : subst j s (shift j t) = t := by
  induction t generalizing j s with
  | index i => grind [shift, subst]
  | const k => rfl
  | pair t u iht ihu => rw [shift, subst, iht, ihu]
  | app t u iht ihu => rw [shift, subst, iht, ihu]
  | lam x t ih => rw [shift, subst, ih]

/-- **Two substitutions** may change places. -/
theorem subst_subst (t : Term κ) {i j : Nat} {a s : Term κ} (h : i ≤ j) :
    subst j s (subst i a t) = subst i (subst j s a) (subst (j + 1) (shift i s) t) := by
  induction t generalizing i j a s with
  | index k => grind [subst, subst_shift]
  | const k => rfl
  | pair t u iht ihu => rw [subst, subst, subst, subst, iht h, ihu h]
  | app t u iht ihu => rw [subst, subst, subst, subst, iht h, ihu h]
  | lam x t ih =>
    rw [subst, subst, subst, subst, ih (by omega), shift_shift s (Nat.zero_le i),
      shift_subst_of_le a (Nat.zero_le j)]

/-! ## Parallel reduction -/

/-- **One step of parallel reduction** applies some of the lambdas that are applied in a term. -/
inductive Par : Term κ → Term κ → Prop
  | index (i : Nat) : Par (index i) (index i)
  | const (k : κ) : Par (const k) (const k)
  | pair {t t' u u' : Term κ} : Par t t' → Par u u' → Par (pair t u) (pair t' u')
  | app {t t' u u' : Term κ} : Par t t' → Par u u' → Par (app t u) (app t' u')
  | lam {x : String} {t t' : Term κ} : Par t t' → Par (lam x t) (lam x t')
  | beta {x : String} {t t' u u' : Term κ} : Par t t' → Par u u' → Par (app (lam x t) u) (subst 0 u' t')

theorem Par.refl (t : Term κ) : Par t t := by
  induction t with
  | index i => exact .index i
  | const k => exact .const k
  | pair t u iht ihu => exact .pair iht ihu
  | app t u iht ihu => exact .app iht ihu
  | lam x t ih => exact .lam ih

theorem Par.shift {t t' : Term κ} (h : Par t t') (c : Nat) : Par (t.shift c) (t'.shift c) := by
  induction h generalizing c with
  | index i => exact .refl _
  | const k => exact .refl _
  | pair _ _ iht ihu => exact .pair (iht c) (ihu c)
  | app _ _ iht ihu => exact .app (iht c) (ihu c)
  | lam _ ih => exact .lam (ih (c + 1))
  | @beta x t t' u u' _ _ iht ihu =>
    rw [shift_subst_of_ge t' (Nat.zero_le c)]
    exact .beta (iht (c + 1)) (ihu c)

theorem Par.subst {t t' s s' : Term κ} (h : Par t t') (hs : Par s s') (j : Nat) :
    Par (Term.subst j s t) (Term.subst j s' t') := by
  induction h generalizing s s' j with
  | index i =>
    unfold Term.subst
    by_cases hlt : i < j
    · rw [if_pos hlt, if_pos hlt]
      exact .refl _
    · rw [if_neg hlt, if_neg hlt]
      by_cases heq : i = j
      · rw [if_pos heq, if_pos heq]
        exact hs
      · rw [if_neg heq, if_neg heq]
        exact .refl _
  | const k => exact .refl _
  | pair _ _ iht ihu => exact .pair (iht hs j) (ihu hs j)
  | app _ _ iht ihu => exact .app (iht hs j) (ihu hs j)
  | lam _ ih => exact .lam (ih (hs.shift 0) (j + 1))
  | @beta x t t' u u' _ _ iht ihu =>
    rw [subst_subst t' (Nat.zero_le j)]
    exact .beta (iht (hs.shift 0) (j + 1)) (ihu hs j)

/-! ## Confluence -/

/-- Applies every lambda that is applied in a term. -/
def develop : Term κ → Term κ
  | index i => index i
  | const k => const k
  | pair t u => pair (develop t) (develop u)
  | app (lam _ t) u => subst 0 (develop u) (develop t)
  | app t u => app (develop t) (develop u)
  | lam x t => lam x (develop t)

/-- **What one step leaves out**, the next one can make up for. -/
theorem par_develop {t u : Term κ} (h : Par t u) : Par u (develop t) := by
  induction h with
  | index i => exact .index i
  | const k => exact .const k
  | pair _ _ iht ihu => exact .pair iht ihu
  | lam _ ih => exact .lam ih
  | beta _ _ iht ihu => exact iht.subst ihu 0
  | @app t t' u u' ht _ iht ihu =>
    cases t with
    | lam x b =>
      -- the step went past the lambda that is applied here
      cases ht with
      | lam _ =>
        cases iht with
        | lam hb => exact .beta hb ihu
    | _ => exact .app iht ihu

theorem par_join {t u v : Term κ} (hu : Relation.ReflTransGen Par t u)
    (hv : Relation.ReflTransGen Par t v) : Relation.Join (Relation.ReflTransGen Par) u v :=
  Relation.church_rosser
    (fun a _ _ hb hc => ⟨develop a, .single (par_develop hb), .single (par_develop hc)⟩) hu hv

/-- Whether no lambda is applied in a term. -/
def IsNormal : Term κ → Prop
  | index _ => True
  | const _ => True
  | pair t u => IsNormal t ∧ IsNormal u
  | app t u => (∀ x b, t ≠ lam x b) ∧ IsNormal t ∧ IsNormal u
  | lam _ t => IsNormal t

theorem IsNormal.eq_of_par {t u : Term κ} (ht : IsNormal t) (h : Par t u) : u = t := by
  induction h with
  | index i => rfl
  | const k => rfl
  | pair _ _ iht ihu => rw [iht ht.1, ihu ht.2]
  | app _ _ iht ihu => rw [iht ht.2.1, ihu ht.2.2]
  | lam _ ih => rw [ih ht]
  | beta => exact absurd rfl (ht.1 _ _)

theorem IsNormal.eq_of_reflTransGen {t u : Term κ} (ht : IsNormal t)
    (h : Relation.ReflTransGen Par t u) : u = t := by
  induction h with
  | refl => rfl
  | tail _ hstep ih => exact IsNormal.eq_of_par ht (ih ▸ hstep)

/-- **A term has at most one normal form.** -/
theorem normal_unique {t u v : Term κ} (hu : Relation.ReflTransGen Par t u)
    (hv : Relation.ReflTransGen Par t v) (hnu : IsNormal u) (hnv : IsNormal v) : u = v := by
  obtain ⟨w, huw, hvw⟩ := par_join hu hv
  rw [← hnu.eq_of_reflTransGen huw, hnv.eq_of_reflTransGen hvw]

end Term

end Parlance
