import Mathlib.Data.List.Sort
import Mathlib.Data.String.Basic
import Parlance.Sorted

/-!
# `Proofs.SortedSets` — a set has one list

The list that a set is kept as is in strict order. So it is known by its members, and what is taken out of it leaves
the list of what is left.

## Contents
- **Strict order.** `pairwise_dropRepeats`, and `sortedLT_sortedNames` for names.
- **Known by the members.** `sortedNames_congr` and `sortedNames_filter`.
-/

namespace Parlance

/-! ## Strict order -/

/-- What is left of a list in order when its repetitions are dropped is in strict order. -/
theorem pairwise_dropRepeats {α : Type} [BEq α] [LawfulBEq α] {R : α → α → Prop} {l : List α}
    (antisymm : ∀ a b, R a b → R b a → a = b) (h : l.Pairwise R) :
    (dropRepeats l).Pairwise fun a b => R a b ∧ a ≠ b := by
  fun_induction dropRepeats l with
  | case1 b c rest heq ih => exact ih h.tail
  | case2 b c rest hne ih =>
    rw [List.pairwise_cons] at h
    refine List.pairwise_cons.mpr ⟨?_, ih h.2⟩
    intro x hx
    rw [mem_dropRepeats] at hx
    refine ⟨h.1 x hx, ?_⟩
    rintro rfl
    -- what equals the first one further on is no later than the second one, and that is not equal to it
    rcases List.mem_cons.mp hx with rfl | hx
    · exact hne (beq_self_eq_true _)
    · have hbc : R b c := h.1 c List.mem_cons_self
      have hcb : R c b := (List.pairwise_cons.mp h.2).1 b hx
      exact hne (beq_iff_eq.mpr (antisymm b c hbc hcb))
  | case3 l hl =>
    rcases l with _ | ⟨a, _ | ⟨b, rest⟩⟩
    · exact .nil
    · exact List.pairwise_singleton _ _
    · exact absurd rfl (hl a b rest)

theorem sortedLT_sortedNames (names : List String) : (sortedNames names).SortedLT := by
  have htrans : ∀ a b c : String, decide (a ≤ b) = true → decide (b ≤ c) = true → decide (a ≤ c) = true := by
    simpa using fun a b c => le_trans (a := a)
  have htotal : ∀ a b : String, (decide (a ≤ b) || decide (b ≤ a)) = true := by
    simpa using fun a b => le_total a b
  have hsorted := pairwise_dropRepeats (by simpa using fun a b => le_antisymm)
    (List.pairwise_mergeSort htrans htotal names)
  rw [List.sortedLT_iff_pairwise]
  refine hsorted.imp ?_
  rintro a b ⟨hle, hne⟩
  exact lt_of_le_of_ne (of_decide_eq_true hle) hne

/-! ## Known by the members -/

/-- Names with the same members are kept as the same list. -/
theorem sortedNames_congr {names names' : List String} (h : ∀ x, x ∈ names ↔ x ∈ names') :
    sortedNames names = sortedNames names' :=
  (sortedLT_sortedNames names).eq_of_mem_iff (sortedLT_sortedNames names') (by simpa using h)

/-- The names that are left over are still in order. -/
theorem sortedNames_filter (p : String → Bool) (names : List String) :
    sortedNames (names.filter p) = (sortedNames names).filter p := by
  have hsorted : ((sortedNames names).filter p).SortedLT :=
    List.sortedLT_iff_pairwise.mpr ((sortedLT_sortedNames names).pairwise.filter p)
  exact (sortedLT_sortedNames _).eq_of_mem_iff hsorted (by simp)

end Parlance
