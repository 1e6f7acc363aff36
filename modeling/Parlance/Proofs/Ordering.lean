import Mathlib
import Parlance.Proofs.Arena

/-!
# `Proofs.Ordering` — how derivations are ordered by their scores

Sorting puts the higher score first, and of equal ones the derivation that was made first. It yields a sorted list
if the scores compare as numbers do, which `Score.Ordered` asks for. A score that is not a number counts as the
lowest one, so that nothing needs to be known of it. Doubles are ordered.

## Contents
- **Scores.** `Score.Ordered`.
- **Doubles.** `UnpackedFloat.rank`, the place of a double among the doubles.
- **Derivations.** `Derivation.before_iff`, `before_total`, `before_trans`.
- **Cells.** `Arena.Sorted`, `Arena.sorted_sort`, `Arena.sort_eq_self`.
-/

namespace Parlance

/-! ## Scores -/

/-- **Scores that compare as numbers do.** Minus infinity is a number. -/
class Score.Ordered (α : Type) [Score α] : Prop where
  isNaN_negInf : isNaN (negInf : α) = false
  lt_asymm : ∀ {a b : α}, lt a b = true → lt b a = false
  /-- What is no less than a number that is no less than a third one is no less than that either. -/
  not_lt_trans : ∀ {a b c : α}, isNaN a = false → isNaN b = false → isNaN c = false →
    lt a b = false → lt b c = false → lt a c = false

/-! ## Doubles -/

open Float.Model

/-- The place of a double among the doubles: its sign and whether it is finite, then its exponent, then its mantissa,
the last two the other way round below zero. -/
def UnpackedFloat.rank : UnpackedFloat → Int ×ₗ Int ×ₗ Int
  | .infinity .negative => toLex (-2, toLex (0, 0))
  | .finite .negative m e _ => toLex (-1, toLex (-e, -(m : Int)))
  | .zero _ => toLex (0, toLex (0, 0))
  | .finite .positive m e _ => toLex (1, toLex (e, (m : Int)))
  | .infinity .positive => toLex (2, toLex (0, 0))
  | .notANumber => toLex (0, toLex (0, 0))

namespace UnpackedFloat

theorem compare_then_eq_lt {e f : Int} {m n : Nat} :
    (compare e f).then (compare m n) = .lt ↔ e < f ∨ e = f ∧ m < n := by
  rw [Ordering.then_eq_lt, compare_lt_iff_lt, compare_eq_iff_eq, compare_lt_iff_lt]

theorem compare_then_eq_gt {e f : Int} {m n : Nat} :
    (compare e f).then (compare m n) = .gt ↔ f < e ∨ e = f ∧ n < m := by
  rw [Ordering.then_eq_gt, compare_gt_iff_gt, compare_eq_iff_eq, compare_gt_iff_gt]

/-- Of two finite doubles above zero, the exponents decide, and then the mantissas. -/
theorem lt_positive {m n : Nat} {e f : Int} (hm : 0 < m) (hn : 0 < n) :
    (UnpackedFloat.finite .positive m e hm).lt (.finite .positive n f hn) = true ↔ e < f ∨ e = f ∧ m < n := by
  unfold UnpackedFloat.lt UnpackedFloat.compare
  rw [beq_iff_eq, Option.some_inj, compare_then_eq_lt]

/-- Below zero it is the other way round. -/
theorem lt_negative {m n : Nat} {e f : Int} (hm : 0 < m) (hn : 0 < n) :
    (UnpackedFloat.finite .negative m e hm).lt (.finite .negative n f hn) = true ↔ f < e ∨ e = f ∧ n < m := by
  unfold UnpackedFloat.lt UnpackedFloat.compare
  rw [beq_iff_eq, Option.some_inj, Ordering.swap_eq_lt, compare_then_eq_gt]

/-- **Doubles compare by their ranks**, if both of them are numbers. -/
theorem lt_iff {a b : UnpackedFloat} :
    a.lt b = true ↔ a.isNaN = false ∧ b.isNaN = false ∧ rank a < rank b := by
  cases a with
  | notANumber => simp [UnpackedFloat.lt, UnpackedFloat.compare, UnpackedFloat.isNaN]
  | infinity s =>
    cases s <;> cases b with
    | notANumber => simp [UnpackedFloat.lt, UnpackedFloat.compare, UnpackedFloat.isNaN]
    | infinity t =>
      cases t <;> simp [UnpackedFloat.lt, UnpackedFloat.compare, compare, UnpackedFloat.isNaN, rank, Prod.Lex.lt_iff]
    | zero t => simp [UnpackedFloat.lt, UnpackedFloat.compare, UnpackedFloat.isNaN, rank, Prod.Lex.lt_iff]
    | finite t n f hn =>
      cases t <;> simp [UnpackedFloat.lt, UnpackedFloat.compare, UnpackedFloat.isNaN, rank, Prod.Lex.lt_iff]
  | zero s =>
    cases b with
    | notANumber => simp [UnpackedFloat.lt, UnpackedFloat.compare, UnpackedFloat.isNaN]
    | infinity t =>
      cases t <;> simp [UnpackedFloat.lt, UnpackedFloat.compare, UnpackedFloat.isNaN, rank, Prod.Lex.lt_iff]
    | zero t => simp [UnpackedFloat.lt, UnpackedFloat.compare, rank]
    | finite t n f hn =>
      cases t <;> simp [UnpackedFloat.lt, UnpackedFloat.compare, UnpackedFloat.isNaN, rank, Prod.Lex.lt_iff]
  | finite s m e hm =>
    cases b with
    | notANumber => cases s <;> simp [UnpackedFloat.lt, UnpackedFloat.compare, UnpackedFloat.isNaN]
    | infinity t =>
      cases s <;> cases t <;>
        simp [UnpackedFloat.lt, UnpackedFloat.compare, UnpackedFloat.isNaN, rank, Prod.Lex.lt_iff]
    | zero t =>
      cases s <;> simp [UnpackedFloat.lt, UnpackedFloat.compare, UnpackedFloat.isNaN, rank, Prod.Lex.lt_iff]
    | finite t n f hn =>
      cases s with
      | positive =>
        cases t with
        | positive => rw [lt_positive]; simp [UnpackedFloat.isNaN, rank, Prod.Lex.lt_iff]
        | negative => simp [UnpackedFloat.lt, UnpackedFloat.compare, rank, Prod.Lex.lt_iff]
      | negative =>
        cases t with
        | positive => simp [UnpackedFloat.lt, UnpackedFloat.compare, UnpackedFloat.isNaN, rank, Prod.Lex.lt_iff]
        | negative => rw [lt_negative]; simp [UnpackedFloat.isNaN, rank, Prod.Lex.lt_iff]

end UnpackedFloat

theorem Float.lt_iff {a b : Float} : Score.lt a b = true ↔
    Score.isNaN a = false ∧ Score.isNaN b = false ∧
      UnpackedFloat.rank a.toModel.unpack < UnpackedFloat.rank b.toModel.unpack := by
  have hlt : Score.lt a b = a.toModel.unpack.lt b.toModel.unpack := by
    show decide (decide (a.toModel.unpack.lt b.toModel.unpack = true) = true) = _
    rw [Bool.decide_eq_true, Bool.decide_eq_true]
  rw [hlt]
  exact UnpackedFloat.lt_iff

instance : Score.Ordered Float where
  isNaN_negInf := by decide +kernel
  lt_asymm := by
    intro a b h
    obtain ⟨-, -, h⟩ := Float.lt_iff.mp h
    rw [Bool.eq_false_iff]
    intro h'
    obtain ⟨-, -, h'⟩ := Float.lt_iff.mp h'
    exact lt_asymm h h'
  not_lt_trans := by
    intro a b c ha hb hc hab hbc
    rw [Bool.eq_false_iff] at hab hbc ⊢
    have hba : UnpackedFloat.rank b.toModel.unpack ≤ UnpackedFloat.rank a.toModel.unpack :=
      not_lt.mp fun h => hab (Float.lt_iff.mpr ⟨ha, hb, h⟩)
    have hcb : UnpackedFloat.rank c.toModel.unpack ≤ UnpackedFloat.rank b.toModel.unpack :=
      not_lt.mp fun h => hbc (Float.lt_iff.mpr ⟨hb, hc, h⟩)
    intro h
    obtain ⟨-, -, h⟩ := Float.lt_iff.mp h
    exact absurd h (not_lt.mpr (hcb.trans hba))

/-! ## Derivations -/

variable {α : Type} [Score α]

namespace Derivation

variable [Score.Ordered α] {d e f : Derivation α}

/-- A derivation is sorted by a number, even if it has no score. -/
theorem isNaN_sortKey (d : Derivation α) : Score.isNaN d.sortKey = false := by
  unfold sortKey
  split
  case isTrue => exact Score.Ordered.isNaN_negInf
  case isFalse h => exact Bool.eq_false_iff.mpr h

/-- **The order of derivations**: the score is no lower, and if it is no higher either, the derivation was made no
later. -/
theorem before_iff : d.before e = true ↔
    Score.lt d.sortKey e.sortKey = false ∧ (Score.lt e.sortKey d.sortKey = true ∨ d.created ≤ e.created) := by
  unfold before compare Score.order
  cases hde : Score.lt d.sortKey e.sortKey with
  | true => simp [Score.Ordered.lt_asymm hde]
  | false =>
    cases hed : Score.lt e.sortKey d.sortKey with
    | true => simp
    | false => simp [compare_gt_iff_gt]

theorem before_total (d e : Derivation α) : d.before e = true ∨ e.before d = true := by
  rw [before_iff, before_iff]
  cases hde : Score.lt d.sortKey e.sortKey with
  | true => exact .inr ⟨Score.Ordered.lt_asymm hde, .inl rfl⟩
  | false =>
    cases hed : Score.lt e.sortKey d.sortKey with
    | true => exact .inl ⟨rfl, .inl rfl⟩
    | false =>
      rcases Nat.le_total d.created e.created with h | h
      · exact .inl ⟨rfl, .inr h⟩
      · exact .inr ⟨rfl, .inr h⟩

theorem before_trans (hde : d.before e = true) (hef : e.before f = true) : d.before f = true := by
  rw [before_iff] at hde hef ⊢
  obtain ⟨hde, hde'⟩ := hde
  obtain ⟨hef, hef'⟩ := hef
  have hd := isNaN_sortKey d
  have he := isNaN_sortKey e
  have hf := isNaN_sortKey f
  refine ⟨Score.Ordered.not_lt_trans hd he hf hde hef, ?_⟩
  cases hfd : Score.lt f.sortKey d.sortKey with
  | true => exact .inl rfl
  | false =>
    -- all three have the same score, so that the numbers decide
    have hed : Score.lt e.sortKey d.sortKey = false := Score.Ordered.not_lt_trans he hf hd hef hfd
    have hfe : Score.lt f.sortKey e.sortKey = false := Score.Ordered.not_lt_trans hf hd he hfd hde
    rw [hed] at hde'
    rw [hfe] at hef'
    exact .inr (Nat.le_trans (hde'.resolve_left Bool.false_ne_true) (hef'.resolve_left Bool.false_ne_true))

end Derivation

/-! ## Cells -/

namespace Arena

variable {arena : Arena α} {l : List Nat}

/-- **Numbers in the order of their derivations.** -/
def Sorted (arena : Arena α) (l : List Nat) : Prop :=
  l.Pairwise fun i j => (arena.get i).before (arena.get j) = true

theorem sorted_sort [Score.Ordered α] (arena : Arena α) (l : List Nat) : arena.Sorted (arena.sort l) := by
  refine List.pairwise_mergeSort (fun i j k hij hjk => ?_) (fun i j => ?_) l
  · exact Derivation.before_trans hij hjk
  · rw [Bool.or_eq_true]
    exact Derivation.before_total _ _

/-- Sorting what is in order leaves it as it is. -/
theorem sort_eq_self (h : arena.Sorted l) : arena.sort l = l := List.mergeSort_of_pairwise h

/-- Only the derivations of a list decide whether it is in order. -/
theorem Sorted.congr {other : Arena α} (h : arena.Sorted l)
    (hl : ∀ i ∈ l, (other.get i).score = (arena.get i).score ∧ (other.get i).created = (arena.get i).created) :
    other.Sorted l := by
  refine List.Pairwise.imp_of_mem (fun {i j} hi hj hij => ?_) h
  obtain ⟨hi, hi'⟩ := hl i hi
  obtain ⟨hj, hj'⟩ := hl j hj
  unfold Derivation.before Derivation.compare Derivation.sortKey at hij ⊢
  rwa [hi, hi', hj, hj']

/-- Places have no part in it. -/
theorem Sorted.congr_bare {other : Arena α} (h : arena.Sorted l)
    (hl : ∀ i ∈ l, (other.get i).bare = (arena.get i).bare) : other.Sorted l := by
  refine h.congr fun i hi => ?_
  have hscore := congrArg Derivation.score (hl i hi)
  have hcreated := congrArg Derivation.created (hl i hi)
  exact ⟨hscore, hcreated⟩

end Arena

end Parlance
