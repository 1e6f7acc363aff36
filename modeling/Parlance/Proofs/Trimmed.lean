import Mathlib.Data.List.Forall2
import Mathlib.Data.List.Induction

/-!
# `Proofs.Trimmed` — lists without what is beaten often enough

Of what is sorted and cut down to `k` items, an item that is beaten by `k` earlier ones is never kept. A list can be
trimmed by leaving out such items before it is sorted. Trimming goes along with everything that a search does with
lists: putting them one behind the other, making a list out of each item, and picking items.

## Contents
- **Trimming.** `Trimmed`, and what goes along with it; `Trimmed.flatMap_take`, which trims by leaving out what comes
  of the last items of a sorted list.
- **Inserting.** `insertBelow`, and the first `k` items of a sorted list.
-/

namespace Parlance

variable {β γ : Type} {beats : β → β → Bool} {k : Nat} {l l' m m' : List β}

/-! ## Trimming -/

/-- **The first list is the second one without some items**, each of which is beaten by at least `k` items before it. -/
inductive Trimmed (beats : β → β → Bool) (k : Nat) : List β → List β → Prop
  | nil : Trimmed beats k [] []
  | keep {l l' : List β} (before : Trimmed beats k l l') (x : β) : Trimmed beats k (l ++ [x]) (l' ++ [x])
  | drop {l l' : List β} {x : β} (before : Trimmed beats k l l') (beaten : k ≤ l'.countP fun y => beats y x) :
    Trimmed beats k l (l' ++ [x])

namespace Trimmed

theorem refl (l : List β) : Trimmed beats k l l := by
  induction l using List.reverseRecOn with
  | nil => exact .nil
  | append_singleton l x ih => exact .keep ih x

theorem sublist (h : Trimmed beats k l l') : l.Sublist l' := by
  induction h with
  | nil => exact .slnil
  | keep before x ih => exact ih.append (List.Sublist.refl [x])
  | drop before beaten ih => exact ih.trans (List.sublist_append_left _ _)

/-- Trimming one list and then the next one. -/
theorem append (h : Trimmed beats k l l') (h' : Trimmed beats k m m') : Trimmed beats k (l ++ m) (l' ++ m') := by
  induction h' with
  | nil => simpa using h
  | keep before x ih =>
    rw [← List.append_assoc, ← List.append_assoc]
    exact .keep ih x
  | drop before beaten ih =>
    rw [← List.append_assoc]
    refine .drop ih (Nat.le_trans beaten ?_)
    rw [List.countP_append]
    exact Nat.le_add_left _ _

/-- Leaving out everything from some item on. -/
theorem extend (h : Trimmed beats k l l') (hm : ∀ x ∈ m, k ≤ l'.countP fun y => beats y x) :
    Trimmed beats k l (l' ++ m) := by
  induction m generalizing l' with
  | nil => simpa using h
  | cons x m ih =>
    have hfirst : Trimmed beats k l (l' ++ [x]) := .drop h (hm x List.mem_cons_self)
    rw [List.append_cons]
    refine ih hfirst fun y hy => Nat.le_trans (hm y (List.mem_cons_of_mem _ hy)) ?_
    rw [List.countP_append]
    exact Nat.le_add_right _ _

/-- Trimming what comes of each item. -/
theorem flatMap {items : List γ} {f g : γ → List β} (h : ∀ x ∈ items, Trimmed beats k (f x) (g x)) :
    Trimmed beats k (items.flatMap f) (items.flatMap g) := by
  induction items with
  | nil => exact .nil
  | cons x items ih =>
    rw [List.flatMap_cons, List.flatMap_cons]
    exact (h x List.mem_cons_self).append (ih fun y hy => h y (List.mem_cons_of_mem _ hy))

theorem length_le_countP_flatMap {items : List γ} {g : γ → List β} {p : β → Bool}
    (h : ∀ x ∈ items, ∃ y ∈ g x, p y = true) : items.length ≤ (items.flatMap g).countP p := by
  induction items with
  | nil => exact Nat.zero_le _
  | cons x items ih =>
    have hrest := ih fun y hy => h y (List.mem_cons_of_mem _ hy)
    have hfirst : 0 < (g x).countP p := List.countP_pos_iff.mpr (h x List.mem_cons_self)
    rw [List.flatMap_cons, List.countP_append, List.length_cons]
    omega

/-- **Leaving out what comes of all but the first `k` items**, if each thing that comes of an item is beaten by one that
comes of any item before it. -/
theorem flatMap_take {items : List γ} {f g : γ → List β} (h : ∀ x ∈ items, Trimmed beats k (f x) (g x))
    (hbeats : items.Pairwise fun x y => ∀ b ∈ g y, ∃ a ∈ g x, beats a b = true) :
    Trimmed beats k ((items.take k).flatMap f) (items.flatMap g) := by
  have hfirst : Trimmed beats k ((items.take k).flatMap f) ((items.take k).flatMap g) :=
    .flatMap fun x hx => h x (List.mem_of_mem_take hx)
  by_cases hk : items.length ≤ k
  case pos =>
    rw [List.take_of_length_le hk] at hfirst ⊢
    exact hfirst
  case neg =>
    -- each of the first `k` items gives something that beats what comes of an item behind them
    have hsplit := List.pairwise_append.mp ((List.take_append_drop k items).symm ▸ hbeats)
    rw [show items.flatMap g = (items.take k).flatMap g ++ (items.drop k).flatMap g by
      rw [← List.flatMap_append, List.take_append_drop]]
    refine hfirst.extend fun b hb => ?_
    obtain ⟨y, hy, hb⟩ := List.mem_flatMap.mp hb
    have hmany := length_le_countP_flatMap fun x hx => hsplit.2.2 x hx y hy b hb
    rwa [List.length_take_of_le (Nat.le_of_not_le hk)] at hmany

/-- Picking items, if one is not picked without those that it beats. -/
theorem filter {p : β → Bool} (hp : ∀ x y, beats x y = true → p x = p y) (h : Trimmed beats k l l') :
    Trimmed beats k (l.filter p) (l'.filter p) := by
  induction h with
  | nil => exact .nil
  | keep before x ih =>
    rw [List.filter_append, List.filter_append]
    exact ih.append (.refl _)
  | @drop l l' x before beaten ih =>
    rw [List.filter_append, List.filter_singleton]
    cases hx : p x with
    | false => simpa using ih
    | true =>
      refine .drop ih (Nat.le_trans beaten ?_)
      rw [List.countP_filter]
      refine List.countP_mono_left fun y _ hy => ?_
      rw [hy, hp y x hy, hx]
      rfl

end Trimmed

/-! ## Inserting -/

/-- Puts an item in front of the first one that is below it. -/
def insertBelow (below : β → β → Bool) (x : β) : List β → List β
  | [] => [x]
  | y :: rest => if below y x then x :: y :: rest else y :: insertBelow below x rest

section Inserting

variable {below : β → β → Bool} {x : β}

theorem insertBelow_perm (below : β → β → Bool) (x : β) (l : List β) : (insertBelow below x l).Perm (x :: l) := by
  induction l with
  | nil => exact .refl _
  | cons y l ih =>
    rw [insertBelow]
    split
    · exact .refl _
    · exact (ih.cons y).trans (.swap x y l)

/-- Lists that begin with the same `k` items still do so when an item is inserted. -/
theorem take_insertBelow_congr (x : β) (h : l.take k = l'.take k) :
    (insertBelow below x l).take k = (insertBelow below x l').take k := by
  induction k generalizing l l' with
  | zero => rfl
  | succ k ih =>
    cases l with
    | nil =>
      cases l' with
      | nil => rfl
      | cons y' rest' => cases h
    | cons y rest =>
      cases l' with
      | nil => cases h
      | cons y' rest' =>
        obtain ⟨rfl, hrest⟩ := List.cons.inj h
        rw [insertBelow, insertBelow]
        split
        · -- the items move on by one place
          have htake : (y :: rest).take k = (y :: rest').take k := by
            have hmin : min k (k + 1) = k := Nat.min_eq_left (Nat.le_succ k)
            have h' := congrArg (List.take k) h
            rwa [List.take_take, List.take_take, hmin] at h'
          rw [List.take_succ_cons, List.take_succ_cons, htake]
        · rw [List.take_succ_cons, List.take_succ_cons, ih hrest]

/-- In a list where no item is below a later one, an item that `k` items are not below is inserted behind these. -/
theorem take_insertBelow_of_room (hsorted : l.Pairwise fun y z => below y z = false)
    (htrans : ∀ y ∈ l, ∀ z ∈ l, below y z = false → below z x = false → below y x = false)
    (hroom : k ≤ l.countP fun y => !below y x) : (insertBelow below x l).take k = l.take k := by
  induction k generalizing l with
  | zero => rfl
  | succ k ih =>
    cases l with
    | nil => cases hroom
    | cons y rest =>
      obtain ⟨hy, hrest⟩ := List.pairwise_cons.mp hsorted
      rw [insertBelow]
      cases hbelow : below y x with
      | true =>
        -- then all items are below it
        have hnone : (y :: rest).countP (fun y => !below y x) = 0 := by
          rw [List.countP_eq_zero]
          intro z hz
          rcases List.mem_cons.mp hz with rfl | hz'
          · rw [hbelow]
            exact Bool.noConfusion
          · cases hz'' : below z x with
            | true => exact Bool.noConfusion
            | false =>
              rw [htrans y List.mem_cons_self z hz (hy z hz') hz''] at hbelow
              cases hbelow
        rw [hnone] at hroom
        cases hroom
      | false =>
        have hmany : k ≤ rest.countP fun y => !below y x := by
          rw [List.countP_cons, hbelow] at hroom
          simpa using hroom
        rw [if_neg Bool.false_ne_true, List.take_succ_cons, List.take_succ_cons, ih hrest
          (fun y hy z hz => htrans y (List.mem_cons_of_mem _ hy) z (List.mem_cons_of_mem _ hz)) hmany]

end Inserting

end Parlance
