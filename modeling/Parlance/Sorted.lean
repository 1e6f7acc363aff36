/-!
# `Sorted` — lists as sets

A set of items is kept as the list of its members in a given order, each of them once.
-/

namespace Parlance

variable {α : Type}

/-- A list without the items that equal the one before them. -/
def dropRepeats [BEq α] : List α → List α
  | a :: b :: rest => if a == b then dropRepeats (b :: rest) else a :: dropRepeats (b :: rest)
  | l => l

/-- The members of a list in order, each of them once. -/
def sortedSet [BEq α] (le : α → α → Bool) (l : List α) : List α := dropRepeats (l.mergeSort le)

/-- The members of a list of strings in order, each of them once. -/
def sortedNames (names : List String) : List String := sortedSet (fun a b => decide (a ≤ b)) names

theorem mem_dropRepeats [BEq α] [LawfulBEq α] {a : α} (l : List α) :
    a ∈ dropRepeats l ↔ a ∈ l := by
  fun_induction dropRepeats l with
  | case1 b c rest h ih => simp_all
  | case2 b c rest h ih => rw [List.mem_cons, ih, List.mem_cons (b := b)]
  | case3 => rfl

/-- Sorting loses nothing and adds nothing. -/
@[simp] theorem mem_sortedSet [BEq α] [LawfulBEq α] {le : α → α → Bool} {a : α} {l : List α} :
    a ∈ sortedSet le l ↔ a ∈ l := by
  rw [sortedSet, mem_dropRepeats, List.mem_mergeSort]

@[simp] theorem mem_sortedNames {a : String} {l : List String} : a ∈ sortedNames l ↔ a ∈ l :=
  mem_sortedSet

end Parlance
