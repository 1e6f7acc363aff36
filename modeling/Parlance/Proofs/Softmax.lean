import Mathlib.Algebra.BigOperators.Group.List.Lemmas
import Mathlib.Algebra.Order.BigOperators.Group.List
import Mathlib.Algebra.Order.Field.Basic
import Mathlib.Analysis.SpecialFunctions.Log.Basic
import Parlance.Score.Softmax

/-!
# `Proofs.Softmax` — distributions in exact arithmetic

The numbers of an ordered field, and one below all of them, are scores as soon as there is an exponential. That is any
function with values above zero which is one at zero. It need not turn sums into products, and none of the laws here
rests on that.

Normalizing takes the largest logarithm off first. So the masses depend on which one that is, and two lists that share
some of their logarithms have these in the same proportions only if the exponential does turn sums into products.

## Contents
- **Exponentials.** `Exponential`, the one of the reals, and a steep one that has no more than is asked for.
- **Scores.** `FieldScore`.
- **Maxima.** `FieldScore.maximum_spec`.
- **Normalizing.** `FieldScore.shares`, and `FieldScore.normalize_of_maximum`.
-/

namespace Parlance

/-! ## Exponentials -/

/-- **What is asked of an exponential**: its values are above zero, and at zero it is one. -/
structure Exponential (K : Type) [Field K] [LinearOrder K] where
  exp : K → K
  ln : K → K
  exp_pos : ∀ x, 0 < exp x
  exp_zero : exp 0 = 1
  ln_one : ln 1 = 0

/-- Whether an exponential turns sums into products. -/
def Exponential.IsMultiplicative {K : Type} [Field K] [LinearOrder K] (E : Exponential K) : Prop :=
  ∀ x y, E.exp (x + y) = E.exp x * E.exp y

/-- The exponential of the reals. -/
noncomputable def Exponential.real : Exponential ℝ where
  exp := Real.exp
  ln := Real.log
  exp_pos := Real.exp_pos
  exp_zero := Real.exp_zero
  ln_one := Real.log_one

theorem Exponential.isMultiplicative_real : Exponential.real.IsMultiplicative := Real.exp_add

/-- One of the rationals, with a step at zero. -/
def Exponential.steep : Exponential ℚ where
  exp x := if 0 ≤ x then 1 else 1 / 3
  ln _ := 0
  exp_pos x := by split <;> norm_num
  exp_zero := if_pos (le_refl 0)
  ln_one := rfl

/-- The steep one does not turn sums into products: two steps below zero are as low as one. -/
theorem Exponential.not_isMultiplicative_steep : ¬ Exponential.steep.IsMultiplicative := by
  intro h
  have htwice := h (-1) (-1)
  norm_num [Exponential.steep] at htwice

/-! ## Scores -/

/-- A number of an ordered field with an exponential, a number below all of these, or nothing that is defined. -/
inductive FieldScore {K : Type} [Field K] [LinearOrder K] (E : Exponential K) where
  | of (x : K)
  | lowest
  | undefined

namespace FieldScore

variable {K : Type} [Field K] [LinearOrder K] {E : Exponential K}

instance : DecidableEq (FieldScore E)
  | of x, of y => decidable_of_iff (x = y) ⟨congrArg of, FieldScore.of.inj⟩
  | lowest, lowest => isTrue rfl
  | undefined, undefined => isTrue rfl
  | of _, lowest | of _, undefined | lowest, of _ | lowest, undefined | undefined, of _ | undefined, lowest =>
    isFalse fun h => nomatch h

/-- The sum; with the lowest number it is the lowest number. -/
def add : FieldScore E → FieldScore E → FieldScore E
  | of x, of y => of (x + y)
  | undefined, _ => undefined
  | _, undefined => undefined
  | _, _ => lowest

/-- The difference. There is no number above all others. -/
def sub : FieldScore E → FieldScore E → FieldScore E
  | of x, of y => of (x - y)
  | lowest, of _ => lowest
  | _, _ => undefined

/-- The product of numbers. -/
def mul : FieldScore E → FieldScore E → FieldScore E
  | of x, of y => of (x * y)
  | _, _ => undefined

/-- The quotient of numbers. -/
def div : FieldScore E → FieldScore E → FieldScore E
  | of x, of y => if y = 0 then undefined else of (x / y)
  | _, _ => undefined

/-- A relation of numbers, of the lowest number with another, and of the lowest number with itself. -/
def compares (r : K → K → Bool) (below same : Bool) : FieldScore E → FieldScore E → Bool
  | of x, of y => r x y
  | lowest, of _ => below
  | lowest, lowest => same
  | _, _ => false

/-- Whether a score is not defined. -/
def isUndefined : FieldScore E → Bool
  | undefined => true
  | _ => false

/-- Whether a score is a number of the field. -/
def isOf : FieldScore E → Bool
  | of _ => true
  | _ => false

/-- The number of the field that a score is, if it is one. -/
def value : FieldScore E → K
  | of x => x
  | _ => 0

/-- The exponential, zero for the lowest number. -/
def exp : FieldScore E → FieldScore E
  | of x => of (E.exp x)
  | lowest => of 0
  | undefined => undefined

/-- The logarithm, the lowest number for zero. -/
def ln : FieldScore E → FieldScore E
  | of x => if x = 0 then lowest else if x < 0 then undefined else of (E.ln x)
  | _ => undefined

/-- The value of a double. -/
def ofFloat (x : Float) : FieldScore E :=
  match Decimal.decode x with
  | .finite negative m q _ => of ((if negative then -1 else 1) * m * 2 ^ q)
  | .infinite negative => if negative then lowest else undefined
  | .nan => undefined

/-- What kind of number it is. -/
def text : FieldScore E → String
  | of _ => "number"
  | lowest => "lowest"
  | undefined => "undefined"

/-- The scores of a field. Roots and powers are not defined here. -/
instance : Score (FieldScore E) where
  add := add
  sub := sub
  mul := mul
  div := div
  ofNat n := of n
  ofFloat := ofFloat
  negZero := of 0
  negInf := lowest
  nan := undefined
  lt := compares (fun x y => x < y) true false
  le := compares (fun x y => x ≤ y) true true
  eq := compares (fun x y => x = y) false true
  isNaN := isUndefined
  isFinite := isOf
  exp := exp
  ln := ln
  sqrt _ := undefined
  pow _ _ := undefined
  text := text
  fixed _ := text

@[simp] theorem of_add (x y : K) : (of x + of y : FieldScore E) = of (x + y) := rfl

@[simp] theorem of_sub (x y : K) : (of x - of y : FieldScore E) = of (x - y) := rfl

@[simp] theorem of_mul (x y : K) : (of x * of y : FieldScore E) = of (x * y) := rfl

@[simp] theorem lowest_sub (y : K) : (lowest - of y : FieldScore E) = lowest := rfl

@[simp] theorem exp_of (x : K) : Score.exp (of x : FieldScore E) = of (E.exp x) := rfl

@[simp] theorem exp_lowest : Score.exp (lowest : FieldScore E) = of 0 := rfl

@[simp] theorem zero_eq : (Score.zero : FieldScore E) = of 0 := congrArg of Nat.cast_zero

@[simp] theorem one_eq : (Score.one : FieldScore E) = of 1 := congrArg of Nat.cast_one

theorem of_ne_undefined (x : K) : (of x : FieldScore E) ≠ undefined := by
  intro h
  cases h

theorem lowest_ne_undefined : (lowest : FieldScore E) ≠ undefined := by
  intro h
  cases h

/-- Division by anything but zero is that of the field. -/
theorem of_div {x y : K} (hy : y ≠ 0) : (of x / of y : FieldScore E) = of (x / y) := if_neg hy

/-- The logarithm of zero is the number below all others. -/
theorem ln_zero : Score.ln (of 0 : FieldScore E) = lowest := if_pos rfl

theorem ln_one [IsStrictOrderedRing K] : Score.ln (of 1 : FieldScore E) = of 0 := by
  show (if (1 : K) = 0 then _ else if (1 : K) < 0 then _ else _) = _
  rw [if_neg one_ne_zero, if_neg (not_lt.mpr zero_le_one), E.ln_one]

/-- Only numbers add up to a number. -/
theorem add_eq_of {a b : FieldScore E} {z : K} (h : a + b = of z) : ∃ x y, a = of x ∧ b = of y ∧ x + y = z := by
  cases a with
  | of x =>
    cases b with
    | of y => exact ⟨x, y, rfl, rfl, FieldScore.of.inj h⟩
    | lowest | undefined => cases h
  | lowest | undefined => cases b <;> cases h

/-- Only numbers have a number as their product. -/
theorem mul_eq_of {a b : FieldScore E} {z : K} (h : a * b = of z) : ∃ x y, a = of x ∧ b = of y ∧ x * y = z := by
  cases a with
  | of x =>
    cases b with
    | of y => exact ⟨x, y, rfl, rfl, FieldScore.of.inj h⟩
    | lowest | undefined => cases h
  | lowest | undefined => cases h

/-! ## Maxima -/

/-- The larger of two scores is one of them. -/
theorem max_eq_or (a b : FieldScore E) : Score.max a b = a ∨ Score.max a b = b := by
  unfold Score.max
  split
  · exact .inr rfl
  · split
    · exact .inl rfl
    · split
      · exact .inr rfl
      · exact .inl rfl

/-- The larger one of a number and something else is a number that is no less. -/
theorem exists_max_of (x : K) (b : FieldScore E) :
    (∃ y, Score.max (of x) b = of y ∧ x ≤ y) ∧ ∃ y, Score.max b (of x) = of y ∧ x ≤ y := by
  cases b with
  | undefined => exact ⟨⟨x, rfl, le_refl x⟩, x, rfl, le_refl x⟩
  | lowest => exact ⟨⟨x, rfl, le_refl x⟩, x, rfl, le_refl x⟩
  | of z =>
    have hmax : ∀ u v : K, Score.max (of u : FieldScore E) (of v) = if u < v then of v else of u := by
      intro u v
      show (if decide (u < v) = true then _ else _) = _
      simp only [decide_eq_true_eq]
    rw [hmax, hmax]
    constructor
    · by_cases h : x < z
      · exact ⟨z, if_pos h, le_of_lt h⟩
      · exact ⟨x, if_neg h, le_refl x⟩
    · by_cases h : z < x
      · exact ⟨x, if_pos h, le_refl x⟩
      · exact ⟨z, if_neg h, not_lt.mp h⟩

/-- **A maximum that is a number** is one of the list, and no number of the list is above it. -/
theorem maximum_spec {l : List (FieldScore E)} {m : K} (h : Score.maximum l = of m) :
    of m ∈ l ∧ ∀ x, of x ∈ l → x ≤ m := by
  -- the fold starts from any score, which then counts as one of the list
  have hfold : ∀ (l : List (FieldScore E)) (a : FieldScore E), l.foldl Score.max a = of m →
      (a = of m ∨ of m ∈ l) ∧ ∀ x, a = of x ∨ of x ∈ l → x ≤ m := by
    intro l
    induction l with
    | nil =>
      rintro a rfl
      refine ⟨.inl rfl, fun x hx => ?_⟩
      rcases hx with hx | hx
      · exact le_of_eq (FieldScore.of.inj hx).symm
      · cases hx
    | cons b l ih =>
      intro a h
      obtain ⟨hmem, hall⟩ := ih (Score.max a b) h
      constructor
      · rcases hmem with hmem | hmem
        · rcases max_eq_or a b with hmax | hmax
          · exact .inl (hmax.symm.trans hmem)
          · exact .inr (List.mem_cons.mpr (.inl (hmem.symm.trans hmax)))
        · exact .inr (List.mem_cons_of_mem _ hmem)
      · intro x hx
        have hstep : (∃ y, Score.max a b = of y ∧ x ≤ y) ∨ of x ∈ l := by
          rcases hx with rfl | hx
          · exact .inl (exists_max_of x b).1
          · rcases List.mem_cons.mp hx with rfl | hx
            · exact .inl (exists_max_of x a).2
            · exact .inr hx
        rcases hstep with ⟨y, hy, hxy⟩ | hx
        · exact hxy.trans (hall y (.inl hy))
        · exact hall x (.inr hx)
  obtain ⟨hmem, hall⟩ := hfold l Score.negInf h
  exact ⟨hmem.resolve_left (fun h => nomatch h), fun x hx => hall x (.inr hx)⟩

/-! ## Normalizing -/

/-- The mass of a logarithm, as seen from the largest one. -/
def mass (m : K) : FieldScore E → K
  | of x => E.exp (x - m)
  | _ => 0

/-- No mass is below zero. -/
theorem mass_nonneg (m : K) (w : FieldScore E) : 0 ≤ mass m w := by
  cases w with
  | of x => exact le_of_lt (E.exp_pos _)
  | lowest | undefined => exact le_refl 0

/-- The mass of a logarithm is the exponential of how far it lies below the largest one. -/
theorem exp_sub {w : FieldScore E} (hw : w ≠ undefined) (m : K) : Score.exp (w - of m) = of (mass m w) := by
  cases w with
  | of x => rfl
  | lowest => rfl
  | undefined => exact absurd rfl hw

/-- Numbers of the field add up as in the field. -/
theorem foldl_add_of (l : List K) (total : K) :
    (l.map (of : K → FieldScore E)).foldl (· + ·) (of total) = of (total + l.sum) := by
  induction l generalizing total with
  | nil => exact congrArg of (by simp)
  | cons x l ih =>
    rw [List.map_cons, List.foldl_cons, of_add, ih, List.sum_cons, add_assoc]

/-- The distribution with given logarithms of weights, seen from the largest of them. -/
def shares (m : K) (logs : List (FieldScore E)) : List K :=
  logs.map fun w => mass m w / (logs.map (mass m)).sum

theorem sum_mass_nonneg [IsStrictOrderedRing K] (m : K) (logs : List (FieldScore E)) :
    0 ≤ (logs.map (mass m)).sum := by
  refine List.sum_nonneg fun x hx => ?_
  obtain ⟨w, -, rfl⟩ := List.mem_map.mp hx
  exact mass_nonneg m w

/-- **Normalizing gives the shares**, as soon as there is any mass. -/
theorem normalize_of_maximum {logs : List (FieldScore E)} (hlogs : ∀ w ∈ logs, w ≠ undefined) {m : K}
    (hm : Score.maximum logs = of m) :
    Score.normalize? logs = if (logs.map (mass m)).sum = 0 then none else some ((shares m logs).map of) := by
  have hweights : (logs.map fun w => Score.exp (w - of m)) = (logs.map (mass m)).map of := by
    rw [List.map_map]
    exact List.map_congr_left fun w hw => exp_sub (hlogs w hw) m
  unfold Score.normalize?
  dsimp only
  rw [hm, hweights, zero_eq, foldl_add_of, zero_add]
  have hfinite : ∀ x, (!Score.isFinite (of x : FieldScore E)) = false := fun _ => rfl
  have heq : Score.eq (of (logs.map (mass m)).sum : FieldScore E) (of 0) = decide ((logs.map (mass m)).sum = 0) := rfl
  rw [hfinite, hfinite, heq, Bool.or_false]
  simp only [Bool.false_eq_true, if_false, decide_eq_true_eq]
  by_cases hzero : (logs.map (mass m)).sum = 0
  · rw [if_pos hzero, if_pos hzero]
  · rw [if_neg hzero, if_neg hzero, shares, List.map_map, List.map_map, List.map_map]
    exact congrArg some (List.map_congr_left fun w _ => of_div hzero)

/-- What has been normalized has some mass, and a number as its maximum. -/
theorem exists_of_normalize [IsStrictOrderedRing K] {logs p : List (FieldScore E)} (hlogs : ∀ w ∈ logs, w ≠ undefined)
    (h : Score.normalize? logs = some p) :
    ∃ m, Score.maximum logs = of m ∧ 0 < (logs.map (mass m)).sum ∧ p = (shares m logs).map of := by
  cases hm : Score.maximum logs with
  | lowest | undefined => simp [Score.normalize?, hm, Score.isFinite, isOf] at h
  | of m =>
    rw [normalize_of_maximum hlogs hm] at h
    split at h
    case isTrue => cases h
    case isFalse hzero =>
      exact ⟨m, rfl, lt_of_le_of_ne (sum_mass_nonneg m logs) (Ne.symm hzero), (Option.some.inj h).symm⟩

/-- **Shares add up to one.** -/
theorem sum_shares {m : K} {logs : List (FieldScore E)} (h : 0 < (logs.map (mass m)).sum) :
    (shares m logs).sum = 1 := by
  have hdiv : ∀ total : K, (logs.map fun w => mass m w / total).sum = (logs.map (mass m)).sum / total := by
    intro total
    simp only [div_eq_mul_inv, List.sum_map_mul_right]
  rw [shares, hdiv, div_self (ne_of_gt h)]

end FieldScore

end Parlance
