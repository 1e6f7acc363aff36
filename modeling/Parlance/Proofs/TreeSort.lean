import Mathlib.Tactic.Lift
import Parlance.Proofs.Exact
import Parlance.Proofs.Ranking
import Parlance.Proofs.Trimmed

/-!
# `Proofs.TreeSort` — trees sorted by exact scores

In exact arithmetic trees are in order. Sorting a list then is inserting its trees one after the other, each in front
of the first one that is below it. So trees that are beaten by `k` earlier ones can be left out, and the first `k`
trees stay what they are.

## Contents
- **Comparing.** `trails`, `beats`, and the order in which trees are sorted.
- **Sorting.** `sort_concat`, and `Trimmed.take_sort`.
-/

namespace Parlance

variable {α : Type} [Score α]

namespace DerivationTree

/-! ## Comparing -/

/-- Whether the score of a tree is a number. -/
def IsNumber (t : DerivationTree α) : Prop := Score.IsNumber t.label.score

/-- Whether a tree scores less than another one. -/
def trails (t u : DerivationTree α) : Bool := Score.lt t.label.score u.label.score

/-- Whether trees belong in the same cell. -/
def sameCell (t u : DerivationTree α) : Bool := t.isAt u.label.first u.label.last u.label.cat

/-- **Whether a tree beats another one** that was found later: it stands in the same cell and scores no less. -/
def beats (t u : DerivationTree α) : Bool := t.sameCell u && !t.trails u

omit [Score α] in
theorem sameCell_iff {t u : DerivationTree α} :
    t.sameCell u = true ↔
      t.label.first = u.label.first ∧ t.label.last = u.label.last ∧ t.label.cat = u.label.cat := by
  unfold sameCell isAt
  simp only [Bool.and_eq_true, beq_iff_eq, and_assoc]

theorem beats_of_not_trails {t u : DerivationTree α} (hcell : t.sameCell u = true) (h : t.trails u = false) :
    t.beats u = true := by
  unfold beats
  rw [hcell, h]
  rfl

/-- Trees are compared by their scores, and then by where they stood. -/
theorem before_iff {x y : DerivationTree α × Nat} (hx : x.1.IsNumber) (hy : y.1.IsNumber) :
    before x y = true ↔ y.1.trails x.1 = true ∨ x.1.trails y.1 = false ∧ x.2 ≤ y.2 := by
  have hkey : ∀ {t : DerivationTree α}, t.IsNumber → t.sortKey = t.label.score := fun {t} ht => by
    have hn : Score.isNaN t.label.score = false := ht
    unfold sortKey
    rw [hn, if_neg Bool.false_ne_true]
  unfold before Score.order
  rw [hkey hx, hkey hy]
  show ((if y.1.trails x.1 = true then _ else if x.1.trails y.1 = true then _ else _ : Ordering).then _ != _) = true ↔ _
  cases hyx : y.1.trails x.1 with
  | true => simp
  | false =>
    cases hxy : x.1.trails y.1 with
    | true => simp
    | false => simp [Nat.compare_ne_gt]

variable [Score.Exact α] {t u v : DerivationTree α} {x y z : DerivationTree α × Nat}

theorem not_trails_trans (ht : t.IsNumber) (hu : u.IsNumber) (hv : v.IsNumber) (h : t.trails u = false)
    (h' : u.trails v = false) : t.trails v = false := Score.NoLess.trans ht hu hv h h'

theorem not_trails_of_trails (h : t.trails u = true) : u.trails t = false := Score.Exact.lt_asymm h

theorem before_trans (hx : x.1.IsNumber) (hy : y.1.IsNumber) (hz : z.1.IsNumber) (h : before x y = true)
    (h' : before y z = true) : before x z = true := by
  rw [before_iff hx hy] at h
  rw [before_iff hy hz] at h'
  rw [before_iff hx hz]
  have hxy : x.1.trails y.1 = false := h.elim not_trails_of_trails And.left
  have hyz : y.1.trails z.1 = false := h'.elim not_trails_of_trails And.left
  cases hzx : z.1.trails x.1 with
  | true => exact .inl rfl
  | false =>
    -- then the three score the same
    refine .inr ⟨not_trails_trans hx hy hz hxy hyz, ?_⟩
    rcases h with h | ⟨-, hle⟩
    · rw [not_trails_trans hy hz hx hyz hzx] at h
      cases h
    · rcases h' with h' | ⟨-, hle'⟩
      · rw [not_trails_trans hz hx hy hzx hxy] at h'
        cases h'
      · exact Nat.le_trans hle hle'

omit [Score.Exact α] in
theorem before_total (hx : x.1.IsNumber) (hy : y.1.IsNumber) : before x y = true ∨ before y x = true := by
  rw [before_iff hx hy, before_iff hy hx]
  cases hyx : y.1.trails x.1 with
  | true => exact .inl (.inl rfl)
  | false =>
    cases hxy : x.1.trails y.1 with
    | true => exact .inr (.inl rfl)
    | false =>
      rcases Nat.le_total x.2 y.2 with hle | hle
      · exact .inl (.inr ⟨rfl, hle⟩)
      · exact .inr (.inr ⟨rfl, hle⟩)

/-- The order leaves no choice but for the trees at one place. -/
theorem before_antisymm (hx : x.1.IsNumber) (hy : y.1.IsNumber) (h : before x y = true) (h' : before y x = true) :
    x.2 = y.2 := by
  rw [before_iff hx hy] at h
  rw [before_iff hy hx] at h'
  rcases h with h | ⟨hxy, hle⟩
  · rcases h' with h' | ⟨hyx, -⟩
    · rw [not_trails_of_trails h'] at h
      cases h
    · rw [hyx] at h
      cases h
  · rcases h' with h' | ⟨-, hle'⟩
    · rw [hxy] at h'
      cases h'
    · exact Nat.le_antisymm hle hle'

/-! ## Sorting -/

theorem pairwise_mergeSort_before {l : List (DerivationTree α × Nat)} (h : ∀ x ∈ l, x.1.IsNumber) :
    (l.mergeSort before).Pairwise fun x y => before x y = true := by
  lift l to List { x : DerivationTree α × Nat // x.1.IsNumber } using h
  rw [← List.map_mergeSort (r := fun x y => before x.1 y.1) fun _ _ _ _ => rfl, List.pairwise_map]
  refine List.pairwise_mergeSort ?_ ?_ l
  · intro x y z h h'
    exact before_trans x.2 y.2 z.2 h h'
  · intro x y
    rw [Bool.or_eq_true]
    exact before_total x.2 y.2

omit [Score.Exact α] in
theorem sort_perm (l : List (DerivationTree α)) : (sort l).Perm l := by
  have h := (List.mergeSort_perm l.zipIdx before).map Prod.fst
  rwa [List.zipIdx_map_fst] at h

/-- A tree that comes last is inserted in its place, and the order is kept. -/
theorem pairwise_insertBelow {s : List (DerivationTree α × Nat)} {n : Nat} (ht : t.IsNumber)
    (hnumbers : ∀ x ∈ s, x.1.IsNumber) (hplaces : ∀ x ∈ s, x.2 ≤ n)
    (hs : s.Pairwise fun x y => before x y = true) :
    (insertBelow (fun x y => x.1.trails y.1) (t, n) s).Pairwise fun x y => before x y = true := by
  induction s with
  | nil => exact List.pairwise_singleton _ _
  | cons x s ih =>
    obtain ⟨hx, hrest⟩ := List.pairwise_cons.mp hs
    have hnumber := hnumbers x List.mem_cons_self
    have ih := ih (fun y hy => hnumbers y (List.mem_cons_of_mem _ hy))
      (fun y hy => hplaces y (List.mem_cons_of_mem _ hy)) hrest
    rw [insertBelow]
    cases htrails : x.1.trails t with
    | true =>
      have hfirst : before (t, n) x = true := (before_iff ht hnumber).mpr (.inl htrails)
      rw [if_pos rfl]
      refine List.pairwise_cons.mpr ⟨fun y hy => ?_, hs⟩
      rcases List.mem_cons.mp hy with rfl | hy'
      · exact hfirst
      · exact before_trans ht hnumber (hnumbers y hy) hfirst (hx y hy')
    | false =>
      rw [if_neg Bool.false_ne_true]
      refine List.pairwise_cons.mpr ⟨fun y hy => ?_, ih⟩
      rcases List.mem_cons.mp ((insertBelow_perm _ _ _).subset hy) with rfl | hy
      · exact (before_iff hnumber ht).mpr (.inr ⟨htrails, hplaces x List.mem_cons_self⟩)
      · exact hx y hy

omit [Score.Exact α] in
theorem map_fst_insertBelow (t : DerivationTree α) (n : Nat) (s : List (DerivationTree α × Nat)) :
    (insertBelow (fun x y => x.1.trails y.1) (t, n) s).map Prod.fst = insertBelow trails t (s.map Prod.fst) := by
  induction s with
  | nil => rfl
  | cons x s ih =>
    rw [insertBelow, List.map_cons, insertBelow]
    split
    · rfl
    · rw [List.map_cons, ih]

/-- **Sorting one more tree** is inserting it. -/
theorem sort_concat {l : List (DerivationTree α)} (hl : ∀ u ∈ l, u.IsNumber) (ht : t.IsNumber) :
    sort (l ++ [t]) = insertBelow trails t (sort l) := by
  have hzip : (l ++ [t]).zipIdx = l.zipIdx ++ [(t, l.length)] := by
    rw [List.zipIdx_append, List.zipIdx_singleton, Nat.zero_add]
  have hnumbers : ∀ x ∈ l.zipIdx, x.1.IsNumber := fun x hx => hl _ (List.fst_mem_of_mem_zipIdx hx)
  have hnumbers' : ∀ x ∈ (l ++ [t]).zipIdx, x.1.IsNumber := by
    intro x hx
    rw [hzip] at hx
    rcases List.mem_append.mp hx with hx | hx
    · exact hnumbers x hx
    · rw [List.mem_singleton.mp hx]
      exact ht
  have hplaces : ∀ x ∈ l.zipIdx, x.2 ≤ l.length := fun x hx => by
    obtain ⟨hlt, -⟩ := List.getElem?_eq_some_iff.mp (List.mem_zipIdx_iff_getElem?.mp hx)
    exact Nat.le_of_lt hlt
  have hsubset := (List.mergeSort_perm l.zipIdx before).subset
  -- both sides are in order and hold the same trees, and there is only one such list
  have hpairwise := pairwise_insertBelow ht (fun x hx => hnumbers x (hsubset hx)) (fun x hx => hplaces x (hsubset hx))
    (pairwise_mergeSort_before hnumbers)
  have hperm : ((l ++ [t]).zipIdx.mergeSort before).Perm
      (insertBelow (fun x y => x.1.trails y.1) (t, l.length) (l.zipIdx.mergeSort before)) := by
    rw [hzip]
    refine (List.mergeSort_perm _ _).trans ((List.perm_append_singleton _ _).trans ?_)
    exact ((List.mergeSort_perm _ _).symm.cons _).trans (insertBelow_perm _ _ _).symm
  have heq := hperm.eq_of_pairwise (fun x y hx hy h h' => ?_) (pairwise_mergeSort_before hnumbers') hpairwise
  · unfold sort
    rw [heq]
    exact map_fst_insertBelow t l.length _
  · -- trees at the same place are the same
    have hx : x ∈ (l ++ [t]).zipIdx := (List.mergeSort_perm _ _).subset hx
    have hy : y ∈ (l ++ [t]).zipIdx := (List.mergeSort_perm _ _).subset (hperm.symm.subset hy)
    have hplace := before_antisymm (hnumbers' x hx) (hnumbers' y hy) h h'
    have hgetx := List.mem_zipIdx_iff_getElem?.mp hx
    rw [hplace, List.mem_zipIdx_iff_getElem?.mp hy] at hgetx
    exact Prod.ext (Option.some.inj hgetx).symm hplace

/-- Sorted trees score no less than those behind them. -/
theorem pairwise_sort {l : List (DerivationTree α)} (hl : ∀ u ∈ l, u.IsNumber) :
    (sort l).Pairwise fun t u => t.trails u = false := by
  have hnumbers : ∀ x ∈ l.zipIdx, x.1.IsNumber := fun x hx => hl _ (List.fst_mem_of_mem_zipIdx hx)
  have hsubset := (List.mergeSort_perm l.zipIdx before).subset
  unfold sort
  rw [List.pairwise_map]
  refine (pairwise_mergeSort_before hnumbers).imp_of_mem fun {x y} hx hy h => ?_
  rw [before_iff (hnumbers x (hsubset hx)) (hnumbers y (hsubset hy))] at h
  exact h.elim not_trails_of_trails And.left

end DerivationTree

/-- **The first `k` of sorted trees** are the same without trees that are beaten by `k` earlier ones. -/
theorem Trimmed.take_sort [Score.Exact α] {k : Nat} {l l' : List (DerivationTree α)}
    (h : Trimmed DerivationTree.beats k l l') (hl : ∀ t ∈ l', t.IsNumber) :
    (DerivationTree.sort l).take k = (DerivationTree.sort l').take k := by
  induction h with
  | nil => rfl
  | @keep l l' before t ih =>
    have ht : t.IsNumber := hl t (by simp)
    have hl' : ∀ u ∈ l', u.IsNumber := fun u hu => hl u (List.mem_append_left _ hu)
    rw [DerivationTree.sort_concat hl' ht, DerivationTree.sort_concat (fun u hu => hl' u (before.sublist.subset hu)) ht]
    exact take_insertBelow_congr t (ih hl')
  | @drop l l' t before beaten ih =>
    -- the tree is inserted behind the `k` trees that beat it
    have ht : t.IsNumber := hl t (by simp)
    have hl' : ∀ u ∈ l', u.IsNumber := fun u hu => hl u (List.mem_append_left _ hu)
    have hsort : ∀ u ∈ DerivationTree.sort l', u.IsNumber := fun u hu =>
      hl' u ((DerivationTree.sort_perm l').subset hu)
    have hroom : k ≤ (DerivationTree.sort l').countP fun u => !u.trails t := by
      rw [(DerivationTree.sort_perm l').countP_eq]
      refine Nat.le_trans beaten (List.countP_mono_left fun u _ hu => ?_)
      exact (Bool.and_eq_true_iff.mp hu).2
    rw [DerivationTree.sort_concat hl' ht, take_insertBelow_of_room (DerivationTree.pairwise_sort hl')
      (fun u hu v hv h h' => DerivationTree.not_trails_trans (hsort u hu) (hsort v hv) ht h h') hroom]
    exact ih hl'

end Parlance
