import Mathlib.Algebra.Order.Ring.Rat
import Mathlib.Data.List.Forall2
import Parlance.Decimal.Decode
import Parlance.Score.Basic

/-!
# `Proofs.Exact` — scores without rounding

What a search keeps depends on how scores compare. In exact arithmetic numbers add up to numbers, they are in order,
and adding a number on either side keeps the order. No more than that is asked for here, and it is true of the
rationals with one more element for what is not defined.

## Contents
- **Laws.** `Score.Exact`.
- **Sums.** The sum of numbers, and of numbers that are no less.
- **Rationals.** `ExactNumber`.
-/

namespace Parlance

/-! ## Laws -/

/-- **What of exact arithmetic is used.** -/
class Score.Exact (α : Type) [Score α] : Prop where
  isNaN_nan : Score.isNaN (Score.nan : α) = true
  isNaN_negZero : Score.isNaN (Score.negZero : α) = false
  isNaN_add : ∀ {a b : α}, Score.isNaN a = false → Score.isNaN b = false → Score.isNaN (a + b) = false
  lt_asymm : ∀ {a b : α}, Score.lt a b = true → Score.lt b a = false
  not_lt_trans : ∀ {a b c : α}, Score.isNaN a = false → Score.isNaN b = false → Score.isNaN c = false →
    Score.lt a b = false → Score.lt b c = false → Score.lt a c = false
  add_left : ∀ {a b : α} (c : α), Score.isNaN a = false → Score.isNaN b = false → Score.isNaN c = false →
    Score.lt a b = false → Score.lt (c + a) (c + b) = false
  add_right : ∀ {a b : α} (c : α), Score.isNaN a = false → Score.isNaN b = false → Score.isNaN c = false →
    Score.lt a b = false → Score.lt (a + c) (b + c) = false

namespace Score

variable {α : Type} [Score α]

/-- Whether a score is a number, as all scores are but for those that are not set. -/
def IsNumber (a : α) : Prop := isNaN a = false

/-- Whether a score is a number that is no less than another one. -/
def NoLess (a b : α) : Prop := lt a b = false

section Exact

variable [Exact α] {a b c : α}

theorem isNumber_negZero : IsNumber (negZero : α) := Exact.isNaN_negZero

theorem IsNumber.add (ha : IsNumber a) (hb : IsNumber b) : IsNumber (a + b) := Exact.isNaN_add ha hb

theorem NoLess.refl (a : α) : NoLess a a := by
  cases h : lt a a with
  | false => exact h
  | true => exact absurd (Exact.lt_asymm h) (by rw [h]; exact Bool.noConfusion)

theorem NoLess.trans (ha : IsNumber a) (hb : IsNumber b) (hc : IsNumber c) (h : NoLess a b) (h' : NoLess b c) :
    NoLess a c := Exact.not_lt_trans ha hb hc h h'

/-- Adding numbers that are no less gives one that is no less. -/
theorem NoLess.add {d : α} (ha : IsNumber a) (hb : IsNumber b) (hc : IsNumber c) (hd : IsNumber d) (h : NoLess a b)
    (h' : NoLess c d) : NoLess (a + c) (b + d) :=
  .trans (ha.add hc) (hb.add hc) (hb.add hd) (Exact.add_right c ha hb hc h) (Exact.add_left b hc hd hb h')

/-! ## Sums -/

/-- The sum of numbers is one. -/
theorem isNumber_sum {l : List α} (h : ∀ a ∈ l, IsNumber a) : IsNumber (sum l) := by
  -- a sum runs from the left, so the induction is over any total so far
  have hfrom : ∀ (l : List α) (total : α), IsNumber total → (∀ a ∈ l, IsNumber a) →
      IsNumber (l.foldl (· + ·) total) := by
    intro l
    induction l with
    | nil =>
      intro total htotal _
      exact htotal
    | cons a l ih =>
      intro total htotal h
      exact ih _ (htotal.add (h a List.mem_cons_self)) fun b hb => h b (List.mem_cons_of_mem _ hb)
  exact hfrom l negZero isNumber_negZero h

/-- **Numbers that are no less, one by one**, have a sum that is no less. -/
theorem noLess_sum {l l' : List α} (hl : ∀ a ∈ l, IsNumber a) (hl' : ∀ b ∈ l', IsNumber b)
    (h : List.Forall₂ NoLess l l') : NoLess (sum l) (sum l') := by
  have hfrom : ∀ (total total' : α), IsNumber total → IsNumber total' → NoLess total total' →
      NoLess (l.foldl (· + ·) total) (l'.foldl (· + ·) total') := by
    induction h with
    | nil =>
      intro total total' _ _ hle
      exact hle
    | @cons a b _ _ hab _ ih =>
      intro total total' ht ht' hle
      have ha := hl a List.mem_cons_self
      have hb := hl' b List.mem_cons_self
      exact ih (fun a ha => hl a (List.mem_cons_of_mem _ ha)) (fun b hb => hl' b (List.mem_cons_of_mem _ hb)) _ _
        (ht.add ha) (ht'.add hb) (hle.add ht ht' ha hb hab)
  exact hfrom negZero negZero isNumber_negZero isNumber_negZero (.refl _)

end Exact

end Score

/-! ## Rationals -/

/-- A rational number, or nothing that is defined. -/
inductive ExactNumber where
  | of (q : ℚ)
  | undefined
  deriving DecidableEq, Inhabited

namespace ExactNumber

/-- An operation on rationals, defined where both of its numbers are. -/
def combine (f : ℚ → ℚ → ℚ) : ExactNumber → ExactNumber → ExactNumber
  | of p, of q => of (f p q)
  | _, _ => undefined

/-- A relation of rationals, false where one of the numbers is not defined. -/
def compares (r : ℚ → ℚ → Bool) : ExactNumber → ExactNumber → Bool
  | of p, of q => r p q
  | _, _ => false

/-- Whether the number is a rational. -/
def isDefined : ExactNumber → Bool
  | of _ => true
  | undefined => false

/-- The value of a double. -/
def ofFloat (x : Float) : ExactNumber :=
  match Decimal.decode x with
  | .finite negative m q _ => of ((if negative then -1 else 1) * m * 2 ^ q)
  | .infinite _ => undefined
  | .nan => undefined

/-- The text of a number. -/
def text : ExactNumber → String
  | of q => toString q
  | undefined => "undefined"

/-- Exact scores. What is not rational in general is not defined here. -/
instance : Score ExactNumber where
  add := combine (· + ·)
  sub := combine (· - ·)
  mul := combine (· * ·)
  div a b := if b = of 0 then undefined else combine (· / ·) a b
  ofNat n := of n
  ofFloat := ofFloat
  negZero := of 0
  negInf := undefined
  nan := undefined
  lt := compares fun a b => a < b
  le := compares fun a b => a ≤ b
  eq := compares fun a b => a = b
  isNaN a := !isDefined a
  isFinite := isDefined
  exp _ := undefined
  ln _ := undefined
  sqrt _ := undefined
  pow _ _ := undefined
  text := text
  fixed _ := text

theorem exists_of_isNumber {a : ExactNumber} (h : Score.isNaN a = false) : ∃ q, a = of q := by
  cases a with
  | of q => exact ⟨q, rfl⟩
  | undefined => cases h

theorem lt_of (p q : ℚ) : Score.lt (of p) (of q) = decide (p < q) := rfl

theorem add_of (p q : ℚ) : of p + of q = of (p + q) := rfl

instance : Score.Exact ExactNumber where
  isNaN_nan := rfl
  isNaN_negZero := rfl
  isNaN_add ha hb := by
    obtain ⟨p, rfl⟩ := exists_of_isNumber ha
    obtain ⟨q, rfl⟩ := exists_of_isNumber hb
    rfl
  lt_asymm := by
    intro a b h
    cases a with
    | undefined => cases h
    | of p =>
      cases b with
      | undefined => cases h
      | of q =>
        have hlt : p < q := of_decide_eq_true h
        exact decide_eq_false (not_lt_of_gt hlt)
  not_lt_trans ha hb hc h h' := by
    obtain ⟨p, rfl⟩ := exists_of_isNumber ha
    obtain ⟨q, rfl⟩ := exists_of_isNumber hb
    obtain ⟨r, rfl⟩ := exists_of_isNumber hc
    rw [lt_of, decide_eq_false_iff_not, not_lt] at h h' ⊢
    exact h'.trans h
  add_left c ha hb hc h := by
    obtain ⟨p, rfl⟩ := exists_of_isNumber ha
    obtain ⟨q, rfl⟩ := exists_of_isNumber hb
    obtain ⟨r, rfl⟩ := exists_of_isNumber hc
    rw [lt_of, decide_eq_false_iff_not, not_lt] at h
    rw [add_of, add_of, lt_of, decide_eq_false_iff_not, not_lt]
    exact add_le_add_right h r
  add_right c ha hb hc h := by
    obtain ⟨p, rfl⟩ := exists_of_isNumber ha
    obtain ⟨q, rfl⟩ := exists_of_isNumber hb
    obtain ⟨r, rfl⟩ := exists_of_isNumber hc
    rw [lt_of, decide_eq_false_iff_not, not_lt] at h
    rw [add_of, add_of, lt_of, decide_eq_false_iff_not, not_lt]
    exact add_le_add_left h r

end ExactNumber

end Parlance
