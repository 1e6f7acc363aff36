import Mathlib.Data.List.Nodup
import Parlance.Grid

/-!
# `Proofs.Spans` — the order of the spans of a text

Both lists of spans have every span. In the one by length, what a span lies within does not stand before it.
-/

namespace Parlance

theorem mem_spansByLength {n first last : Nat} :
    (first, last) ∈ spansByLength n ↔ first < last ∧ last ≤ n := by
  simp only [spansByLength, List.mem_flatMap, List.mem_range, List.mem_map, Prod.mk.injEq]
  constructor
  · rintro ⟨k, hk, a, ha, rfl, rfl⟩
    omega
  · rintro ⟨hf, hl⟩
    exact ⟨last - first - 1, by omega, first, by omega, rfl, by omega⟩

theorem mem_spansByStart {n first last : Nat} :
    (first, last) ∈ spansByStart n ↔ first < last ∧ last ≤ n := by
  simp only [spansByStart, List.mem_flatMap, List.mem_range, List.mem_map, Prod.mk.injEq]
  constructor
  · rintro ⟨k, hk, a, ha, rfl, rfl⟩
    omega
  · rintro ⟨hf, hl⟩
    exact ⟨first, by omega, last - first - 1, by omega, rfl, by omega⟩

/-- A span is shorter than another one, or as long and further to the left. -/
def SpanBefore (a b : Nat × Nat) : Prop :=
  a.2 - a.1 < b.2 - b.1 ∨ (a.2 - a.1 = b.2 - b.1 ∧ a.1 < b.1)

theorem pairwise_spansByLength (n : Nat) : (spansByLength n).Pairwise SpanBefore := by
  unfold spansByLength
  rw [List.pairwise_flatMap]
  constructor
  · intro k _
    rw [List.pairwise_map]
    refine List.pairwise_lt_range.imp fun h => Or.inr ⟨?_, h⟩
    show _ + _ + 1 - _ = _ + _ + 1 - _
    omega
  · refine List.pairwise_lt_range.imp fun h a ha b hb => ?_
    obtain ⟨i, -, rfl⟩ := List.mem_map.mp ha
    obtain ⟨j, -, rfl⟩ := List.mem_map.mp hb
    left
    show i + _ + 1 - i < j + _ + 1 - j
    omega

/-- What a span lies within does not stand before it. -/
theorem not_within_of_mem {n first last i j : Nat} {pre post : List (Nat × Nat)}
    (h : spansByLength n = pre ++ (first, last) :: post) (hm : (i, j) ∈ pre) :
    ¬(i ≤ first ∧ last ≤ j) := by
  have hfl : (first, last) ∈ spansByLength n := h ▸ by simp
  have hp := pairwise_spansByLength n
  rw [h] at hp
  have hb := (List.pairwise_append.mp hp).2.2 _ hm _ List.mem_cons_self
  have hlt := (mem_spansByLength.mp hfl).1
  unfold SpanBefore at hb
  simp only at hb
  omega

end Parlance
