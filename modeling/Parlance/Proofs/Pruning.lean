import Parlance.Proofs.Ordering
import Parlance.Proofs.WellMade

/-!
# `Proofs.Pruning` — what pruning does, with noise or without

Pruning a cell writes to the derivations of the cell only: their places, and their scores if there is noise. It
leaves the cell in order by the scores that it has written, and, in a beam that goes by size, no longer than the beam.

## Contents
- **Arenas.** Reading back what is written to one derivation or to those of a list; `read_modify`.
- **Derivations.** `read_prune`, what pruning never changes, and `get_prune_of_not_mem`.
- **Cells.** `sorted_prune`, `length_get_prune`, `get_prune_subset`.
-/

namespace Parlance

variable {α β σ : Type} [Score α]

/-! ## Arenas -/

namespace Arena

variable {arena : Arena α} {i j : Nat} {f : Derivation α → Derivation α}

theorem get_modify_of_ne (h : j ≠ i) : (arena.modify i f).get j = arena.get j := by
  unfold get get? modify
  rw [Array.getElem?_modify, if_neg fun he => h he.symm]

theorem get_push_of_lt {d : Derivation α} (h : i < arena.size) : (arena.push d).get i = arena.get i := by
  unfold get get? push
  rw [Array.getElem?_push_lt h, Array.getElem?_eq_getElem h]

theorem get_push_self {d : Derivation α} : (arena.push d).get arena.size = d := by
  unfold get get? push size
  rw [Array.getElem?_push_size, Option.getD_some]

theorem get_modify_self (h : i < arena.size) : (arena.modify i f).get i = f (arena.get i) := by
  unfold size at h
  unfold get get? modify
  rw [Array.getElem?_modify, if_pos rfl, Array.getElem?_eq_getElem h]
  rfl

omit [Score α] in
@[simp] theorem size_modify : (arena.modify i f).size = arena.size := by
  simp [size, modify]

/-- What a change of one derivation leaves alone about it, it leaves alone about all. -/
theorem read_modify (g : Derivation α → β) (hg : g (f (arena.get i)) = g (arena.get i)) :
    g ((arena.modify i f).get j) = g (arena.get j) := by
  by_cases h : j = i
  case neg => rw [get_modify_of_ne h]
  case pos =>
    subst h
    unfold get get? modify at *
    rw [Array.getElem?_modify, if_pos rfl]
    cases hd : arena.items[j]? with
    | none => rfl
    | some d =>
      rw [hd] at hg
      exact hg

omit [Score α] in
/-- What every step leaves alone, a fold leaves alone. -/
theorem read_foldl {step : Arena α → σ → Arena α} {l : List σ} (g : Arena α → β)
    (h : ∀ arena, ∀ x ∈ l, g (step arena x) = g arena) (arena : Arena α) : g (l.foldl step arena) = g arena := by
  induction l generalizing arena with
  | nil => rfl
  | cons x l ih =>
    rw [List.foldl_cons, ih (fun arena y hy => h arena y (List.mem_cons_of_mem _ hy)), h arena x List.mem_cons_self]

/-- Writing to the derivations of a list leaves all others alone. -/
theorem get_foldl_modify_of_not_mem {g : Arena α → Nat × Nat → Derivation α → Derivation α} {l : List Nat}
    {start : Nat} (h : i ∉ l) :
    ((l.zipIdx start).foldl (fun arena x => arena.modify x.1 (g arena x)) arena).get i = arena.get i := by
  refine read_foldl (fun arena => arena.get i) (fun arena x hx => ?_) arena
  have hne : i ≠ x.1 := fun he => h (he ▸ List.fst_mem_of_mem_zipIdx hx)
  exact get_modify_of_ne hne

end Arena

/-! ## Derivations -/

/-- Something about a derivation that neither its score nor its places have a part in. -/
def Derivation.Lasting (g : Derivation α → β) : Prop :=
  ∀ d score preSort maxUnsorted postSort maxBeam,
    g { d with score, preSort, maxUnsorted, postSort, maxBeam } = g d

namespace Chart

variable {chart : Chart α} {arena : Arena α} {first last i : Nat} {cat : String}

/-- Noise changes scores only. -/
theorem read_disturb {g : Derivation α → β} (hg : ∀ d score, g { d with score } = g d) (beam : Beam α)
    (arena : Arena α) (drawn : Nat) (l : List Nat) (i : Nat) :
    g ((disturb beam arena drawn l).get i) = g (arena.get i) := by
  refine Arena.read_foldl (fun arena => g (arena.get i)) (fun arena x _ => ?_) arena
  exact Arena.read_modify g (hg (arena.get x.1) _)

/-- What no note of a place changes, none of several does. -/
theorem read_notePlaces {g : Derivation α → β} (note : Arena α → Nat → Nat → Arena α)
    (hnote : ∀ arena place j, g ((note arena place j).get i) = g (arena.get i)) (arena : Arena α) (l : List Nat) :
    g ((notePlaces note arena l).get i) = g (arena.get i) :=
  Arena.read_foldl (fun arena => g (arena.get i)) (fun arena x _ => hnote arena x.2 x.1) arena

/-- **What pruning never changes** about derivations. -/
theorem read_prune {g : Derivation α → β} (hg : Derivation.Lasting g) :
    g ((chart.prune arena first last cat).2.get i) = g (arena.get i) := by
  have hunsorted := read_notePlaces (i := i) noteUnsorted fun arena _ j =>
    Arena.read_modify g (hg (arena.get j) _ _ _ _ _)
  have hsorted := read_notePlaces (i := i) noteSorted fun arena _ j =>
    Arena.read_modify g (hg (arena.get j) _ _ _ _ _)
  have hdisturb : ∀ (arena : Arena α) (l : List Nat),
      g ((disturb chart.beam arena chart.drawn l).get i) = g (arena.get i) := fun arena l =>
    read_disturb (fun d score => hg d score d.preSort d.maxUnsorted d.postSort d.maxBeam) _ arena _ l i
  by_cases h : chart.get first last cat = []
  case pos => rw [prune_of_empty arena h]
  case neg =>
    unfold prune
    rw [if_neg (by simpa using h)]
    refine (hsorted _ _).trans ?_
    split
    · exact (hdisturb _ _).trans (hunsorted _ _)
    · exact hunsorted _ _

/-- **Pruning writes to the cell only.** -/
theorem get_prune_of_not_mem (hi : i ∉ chart.get first last cat) :
    (chart.prune arena first last cat).2.get i = arena.get i := by
  have hsorted : ∀ arena : Arena α, i ∉ arena.sort (chart.get first last cat) :=
    fun arena hm => hi ((arena.sort_perm _).mem_iff.mp hm)
  by_cases h : chart.get first last cat = []
  case pos => rw [prune_of_empty arena h]
  case neg =>
    unfold prune
    rw [if_neg (by simpa using h)]
    refine (Arena.get_foldl_modify_of_not_mem (hsorted _)).trans ?_
    split
    · exact (Arena.get_foldl_modify_of_not_mem hi).trans (Arena.get_foldl_modify_of_not_mem hi)
    · exact Arena.get_foldl_modify_of_not_mem hi

/-! ## Cells -/

/-- What pruning leaves of a cell: some of what there was, in order, and as much as there is room for. -/
theorem exists_prune [Score.Ordered α] (arena : Arena α) (h : chart.get first last cat ≠ []) :
    ∃ kept, (chart.prune arena first last cat).1.get first last cat = kept ∧
      (chart.prune arena first last cat).2.Sorted kept ∧
      (chart.beam.policy = .topK → kept.length ≤ chart.beam.size) := by
  obtain ⟨i, hi⟩ := List.exists_mem_of_ne_nil _ h
  have hkey : ∀ stats drawn, cat ∈ (Chart.cellAt { chart with stats, drawn } first last).keys :=
    fun _ _ => @mem_keys_of_mem_get _ chart _ _ _ _ hi
  unfold prune
  rw [if_neg (by simpa using h)]
  dsimp only
  generalize (if Score.lt Score.zero chart.beam.noise = true then _ else notePlaces noteUnsorted arena _) = noisy
  refine ⟨_, get_setCell_self (hkey _ _) _, ?_, ?_⟩
  · refine List.Pairwise.sublist (chart.beam.cut_sublist _ _) ?_
    refine (Arena.sorted_sort noisy (chart.get first last cat)).congr_bare fun i _ => ?_
    exact Arena.bare_get_congr (congrArg (·[i]?) (Arena.bares_notePlaces
      (fun arena place i => Arena.bares_noteSorted arena place i) _ _))
  · intro hpolicy
    unfold Beam.cut
    rw [hpolicy]
    exact List.length_take_le _ _

theorem get_prune_subset : (chart.prune arena first last cat).1.get first last cat ⊆ chart.get first last cat := by
  by_cases h : chart.get first last cat = []
  case pos =>
    rw [prune_of_empty arena h]
    exact List.Subset.refl _
  case neg =>
    obtain ⟨stats, drawn, kept, hkept, he⟩ := exists_kept arena h
    obtain ⟨i, hi⟩ := List.exists_mem_of_ne_nil _ h
    have hkey : cat ∈ (Chart.cellAt { chart with stats, drawn } first last).keys :=
      @mem_keys_of_mem_get _ chart _ _ _ _ hi
    rw [he, get_setCell_self hkey]
    exact hkept

variable [Score.Ordered α]

/-- **Pruning leaves a cell in order.** -/
theorem sorted_prune : (chart.prune arena first last cat).2.Sorted ((chart.prune arena first last cat).1.get first last cat) := by
  by_cases h : chart.get first last cat = []
  case pos =>
    rw [prune_of_empty arena h, h]
    exact List.Pairwise.nil
  case neg =>
    obtain ⟨kept, hkept, hsorted, -⟩ := exists_prune arena h
    rw [hkept]
    exact hsorted

/-- **A beam that goes by size** leaves no more derivations than it has room for. -/
theorem length_get_prune (hpolicy : chart.beam.policy = .topK) :
    ((chart.prune arena first last cat).1.get first last cat).length ≤ chart.beam.size := by
  by_cases h : chart.get first last cat = []
  case pos =>
    rw [prune_of_empty arena h, h]
    exact Nat.zero_le _
  case neg =>
    obtain ⟨kept, hkept, -, hlength⟩ := exists_prune arena h
    rw [hkept]
    exact hlength hpolicy

end Chart

end Parlance
