import Parlance.Proofs.Pruning

/-!
# `Proofs.Places` — what pruning a cell notes on its derivations

Before a cell is sorted each of its derivations gets its place, and after that it gets its place again. Along with
either one the largest place in the tree is noted, going by what the children have noted. No child is in the cell of
its parent, so that it does not matter that the notes are made one after the other.

If each derivation of an arena has noted the larger one of its own place and what its children have noted, then by
induction it has noted the largest place in its tree.

## Contents
- **Noting.** `Arena.get_notePlaces`, what noting writes to each derivation.
- **Pruning.** `Arena.Ranked` and `Arena.Noted`; `Chart.Disturbed`, `Chart.get_prune_eq_cut`, `Chart.noted_prune`.
- **Trees.** `Arena.Child`, `Arena.isGreatest_place`.
-/

namespace Parlance

variable {α : Type} [Score α]

/-! ## Noting -/

/-- What goes by the places that the children have noted goes by the children. -/
theorem childPlace_congr {arena other : Arena α} {place : Derivation α → Int} {d e : Derivation α}
    (hchildren : d.children = e.children) (h : ∀ c ∈ e.children, arena.get c = other.get c) :
    childPlace place arena d = childPlace place other e := by
  unfold childPlace
  rw [hchildren]
  exact List.foldl_ext _ _ _ fun best c hc => by rw [h c hc]

namespace Derivation

/-- A derivation with what is noted on it before sorting. -/
def notedUnsorted (arena : Arena α) (place : Nat) (d : Derivation α) : Derivation α :=
  { d with
    maxUnsorted := max (place : Int) (childPlace Derivation.maxUnsorted arena d)
    preSort := if d.preSort == -1 then place else d.preSort }

/-- A derivation with what is noted on it after sorting. -/
def notedSorted (arena : Arena α) (place : Nat) (d : Derivation α) : Derivation α :=
  { d with
    maxBeam := max (place : Int) (childPlace Derivation.maxBeam arena d)
    postSort := place }

variable {a b : Arena α} {d : Derivation α}

theorem notedUnsorted_congr (place : Nat) (h : ∀ c ∈ d.children, a.get c = b.get c) :
    notedUnsorted a place d = notedUnsorted b place d := by
  unfold notedUnsorted
  rw [childPlace_congr rfl h]

theorem notedSorted_congr (place : Nat) (h : ∀ c ∈ d.children, a.get c = b.get c) :
    notedSorted a place d = notedSorted b place d := by
  unfold notedSorted
  rw [childPlace_congr rfl h]

end Derivation

namespace Arena

variable {arena other : Arena α} {l cell : List Nat} {i k : Nat} {f : Arena α → Nat → Derivation α → Derivation α}
  {note : Arena α → Nat → Nat → Arena α}

/-- **What noting places writes**: to each derivation its own place. What is noted goes by the children, which are
not in the list. -/
theorem get_notePlaces (hnote : ∀ arena place i, note arena place i = arena.modify i (f arena place))
    (hf : ∀ a b : Arena α, ∀ place d, (∀ c ∈ d.children, a.get c = b.get c) → f a place d = f b place d)
    (hnodup : l.Nodup) (hchildren : ∀ c ∈ (arena.get i).children, c ∉ l) (hi : i < arena.size)
    (hk : l[k]? = some i) : (notePlaces note arena l).get i = f arena k (arena.get i) := by
  obtain ⟨hlt, hget⟩ := List.getElem?_eq_some_iff.mp hk
  have hsplit : l = l.take k ++ i :: l.drop (k + 1) := by
    rw [← hget, List.getElem_cons_drop, List.take_append_drop]
  have hlength : (l.take k).length = k := List.length_take_of_le (Nat.le_of_lt hlt)
  rw [hsplit] at hnodup
  have hbefore : i ∉ l.take k := fun hm => (List.nodup_append.mp hnodup).2.2 i hm i List.mem_cons_self rfl
  have hafter : i ∉ l.drop (k + 1) := (List.nodup_cons.mp (List.nodup_append.mp hnodup).2.1).1
  unfold notePlaces
  simp only [hnote]
  rw [hsplit, List.zipIdx_append, List.foldl_append, List.zipIdx_cons, List.foldl_cons, hlength, Nat.zero_add,
    get_foldl_modify_of_not_mem hafter]
  generalize hnoted : ((l.take k).zipIdx 0).foldl _ arena = noted
  have hsame : ∀ c, c ∉ l.take k → noted.get c = arena.get c := by
    intro c hc
    rw [← hnoted]
    exact get_foldl_modify_of_not_mem hc
  have hsize : noted.size = arena.size := by
    rw [← hnoted]
    exact read_foldl size (fun _ _ _ => size_modify) arena
  rw [get_modify_self (hsize ▸ hi), hsame i hbefore]
  exact hf noted arena k _ fun c hc => hsame c fun hm => hchildren c hc (List.mem_of_mem_take hm)

/-- Sorting a list goes by its own derivations. -/
theorem sort_congr_of_mem (h : ∀ j ∈ cell, (arena.get j).bare = (other.get j).bare) :
    arena.sort cell = other.sort cell := by
  have hbefore : ∀ j ∈ cell, ∀ k ∈ cell,
      (arena.get j).before (arena.get k) = (other.get j).before (other.get k) := by
    intro j hj k hk
    show (arena.get j).bare.before (arena.get k).bare = (other.get j).bare.before (other.get k).bare
    rw [h j hj, h k hk]
  have hmap := List.map_mergeSort (f := id) (s := fun j k => (other.get j).before (other.get k)) hbefore
  rwa [List.map_id, List.map_id] at hmap

/-- Dropping elements from a list goes by what is asked of them. -/
theorem dropWhile_congr_of_mem {γ : Type} {p q : γ → Bool} {l : List γ} (h : ∀ x ∈ l, p x = q x) :
    l.dropWhile p = l.dropWhile q := by
  induction l with
  | nil => rfl
  | cons x l ih =>
    rw [List.dropWhile_cons, List.dropWhile_cons, h x List.mem_cons_self,
      ih fun y hy => h y (List.mem_cons_of_mem _ hy)]

/-- Cutting a list goes by the scores of its own derivations. -/
theorem cut_congr_of_mem (h : ∀ j ∈ cell, arena.score j = other.score j) (beam : Beam α) :
    beam.cut arena cell = beam.cut other cell := by
  unfold Beam.cut
  cases beam.policy with
  | topK => rfl
  | probDiff threshold =>
    cases cell with
    | nil => rfl
    | cons best rest =>
      refine congrArg List.reverse (dropWhile_congr_of_mem fun j hj => ?_)
      rw [h best List.mem_cons_self, h j (List.mem_reverse.mp hj)]

/-! ## Pruning -/

/-- **The ranks of a derivation** in a cell that has it once: its place before the cell is sorted, and its place
after that. -/
structure Ranked (arena : Arena α) (cell : List Nat) (i : Nat) : Prop where
  once : cell.Nodup
  preSort : ∃ k : Nat, cell[k]? = some i ∧ (arena.get i).preSort = k
  postSort : ∃ k : Nat, (arena.sort cell)[k]? = some i ∧ (arena.get i).postSort = k

/-- **What pruning its cell notes on a derivation**: its ranks, and the larger one of each and what its children have
noted. -/
structure Noted (arena : Arena α) (cell : List Nat) (i : Nat) : Prop extends Ranked arena cell i where
  maxUnsorted : (arena.get i).maxUnsorted =
    max (arena.get i).preSort (childPlace Derivation.maxUnsorted arena (arena.get i))
  maxBeam : (arena.get i).maxBeam = max (arena.get i).postSort (childPlace Derivation.maxBeam arena (arena.get i))

theorem Ranked.mem (h : arena.Ranked cell i) : i ∈ cell := by
  obtain ⟨k, hk, -⟩ := h.preSort
  exact List.mem_of_getElem? hk

/-- What is noted is noted for as long as nothing is written to the cell and to the children. -/
theorem Noted.congr (h : arena.Noted cell i) (hcell : ∀ j ∈ cell, other.get j = arena.get j)
    (hchildren : ∀ c ∈ (arena.get i).children, other.get c = arena.get c) : other.Noted cell i := by
  have hi := hcell i h.mem
  have hsort : other.sort cell = arena.sort cell := sort_congr_of_mem fun j hj => by rw [hcell j hj]
  have hplace : ∀ place : Derivation α → Int,
      childPlace place other (arena.get i) = childPlace place arena (arena.get i) :=
    fun place => childPlace_congr rfl hchildren
  exact {
    once := h.once
    preSort := by
      rw [hi]
      exact h.preSort
    postSort := by
      rw [hi, hsort]
      exact h.postSort
    maxUnsorted := by
      rw [hi, hplace]
      exact h.maxUnsorted
    maxBeam := by
      rw [hi, hplace]
      exact h.maxBeam }

/-- Where a beam that goes by size has cut a cell, what is left ranks below the size. -/
theorem Ranked.postSort_lt (h : arena.Ranked cell i) {size : Nat} (hi : i ∈ (arena.sort cell).take size) :
    (arena.get i).postSort < size := by
  obtain ⟨k, hk, hpost⟩ := h.postSort
  obtain ⟨hlt, hget⟩ := List.getElem?_eq_some_iff.mp hk
  have hnodup : (arena.sort cell).Nodup := (arena.sort_perm cell).nodup_iff.mpr h.once
  obtain ⟨m, hm, he⟩ := List.mem_iff_getElem.mp hi
  rw [List.length_take] at hm
  rw [List.getElem_take] at he
  have : m = k := (hnodup.getElem_inj_iff).mp (he.trans hget.symm)
  omega

end Arena

namespace Chart

variable {chart : Chart α} {arena : Arena α} {first last i : Nat} {cat : String}

/-- **The derivations while a cell is pruned**, after their places were noted and noise was added, and before they are
sorted. -/
structure Disturbed (chart : Chart α) (arena : Arena α) (first last : Nat) (cat : String) (disturbed : Arena α) :
    Prop where
  size : disturbed.size = arena.size
  others : ∀ i, i ∉ chart.get first last cat → disturbed.get i = arena.get i
  read : ∀ i, let noted := notePlaces noteUnsorted arena (chart.get first last cat)
    (disturbed.get i).children = (noted.get i).children ∧ (disturbed.get i).preSort = (noted.get i).preSort ∧
      (disturbed.get i).maxUnsorted = (noted.get i).maxUnsorted
  after : (chart.prune arena first last cat).2 =
    notePlaces noteSorted disturbed (disturbed.sort (chart.get first last cat))
  /-- What is noted after sorting has no part in the order. -/
  sort : (chart.prune arena first last cat).2.sort (chart.get first last cat) =
    disturbed.sort (chart.get first last cat)
  kept : (chart.prune arena first last cat).1.get first last cat =
    chart.beam.cut (chart.prune arena first last cat).2 (disturbed.sort (chart.get first last cat))

/-- **Pruning a cell that has derivations**: it notes places, disturbs scores if there is noise, sorts, and notes
places again. -/
theorem exists_disturbed (arena : Arena α) (h : chart.get first last cat ≠ []) :
    ∃ disturbed, chart.Disturbed arena first last cat disturbed := by
  obtain ⟨j, hj⟩ := List.exists_mem_of_ne_nil _ h
  have hkey : ∀ stats drawn, cat ∈ (Chart.cellAt { chart with stats, drawn } first last).keys :=
    fun _ _ => @mem_keys_of_mem_get _ chart _ _ _ _ hj
  have hsize : (notePlaces noteUnsorted arena (chart.get first last cat)).size = arena.size :=
    Arena.read_foldl Arena.size (fun _ _ _ => Arena.size_modify) arena
  have hothers : ∀ i, i ∉ chart.get first last cat →
      (notePlaces noteUnsorted arena (chart.get first last cat)).get i = arena.get i :=
    fun i hi => Arena.get_foldl_modify_of_not_mem hi
  let noisy := if Score.lt Score.zero chart.beam.noise = true then
    disturb chart.beam (notePlaces noteUnsorted arena (chart.get first last cat)) chart.drawn
      (chart.get first last cat) else notePlaces noteUnsorted arena (chart.get first last cat)
  have hafter : (chart.prune arena first last cat).2 =
      notePlaces noteSorted noisy (noisy.sort (chart.get first last cat)) := by
    unfold prune
    rw [if_neg (by simpa using h)]
  refine ⟨noisy, ?_, ?_, ?_, hafter, ?_, ?_⟩
  · unfold noisy
    split
    · exact (Arena.read_foldl Arena.size (fun _ _ _ => Arena.size_modify) _).trans hsize
    · exact hsize
  · intro i hi
    unfold noisy
    split
    · exact (Arena.get_foldl_modify_of_not_mem hi).trans (hothers i hi)
    · exact hothers i hi
  · intro i
    unfold noisy
    split
    · exact ⟨read_disturb (fun _ _ => rfl) _ _ _ _ i, read_disturb (fun _ _ => rfl) _ _ _ _ i,
        read_disturb (fun _ _ => rfl) _ _ _ _ i⟩
    · exact ⟨rfl, rfl, rfl⟩
  · rw [hafter]
    exact Arena.sort_congr (Arena.bares_notePlaces (fun arena place i => Arena.bares_noteSorted arena place i) _ _) _
  · rw [hafter]
    unfold prune
    rw [if_neg (by simpa using h)]
    exact get_setCell_self (hkey _ _) _

/-- **What pruning leaves of a cell**, by the scores that it leaves. -/
theorem get_prune_eq_cut : (chart.prune arena first last cat).1.get first last cat =
    chart.beam.cut (chart.prune arena first last cat).2
      ((chart.prune arena first last cat).2.sort (chart.get first last cat)) := by
  by_cases h : chart.get first last cat = []
  case pos =>
    rw [prune_of_empty arena h, h]
    exact (chart.beam.best_nil arena).symm
  case neg =>
    obtain ⟨disturbed, hdisturbed⟩ := exists_disturbed arena h
    rw [hdisturbed.kept, hdisturbed.sort]

/-- **What pruning notes** on the derivations of a cell that has each of them once and none of their children. -/
theorem noted_prune (hnodup : (chart.get first last cat).Nodup)
    (hlt : ∀ i ∈ chart.get first last cat, i < arena.size)
    (hfresh : ∀ i ∈ chart.get first last cat, (arena.get i).preSort = -1)
    (hchildren : ∀ i ∈ chart.get first last cat, ∀ c ∈ (arena.get i).children, c ∉ chart.get first last cat)
    (hi : i ∈ chart.get first last cat) :
    (chart.prune arena first last cat).2.Noted (chart.get first last cat) i := by
  obtain ⟨disturbed, hdisturbed⟩ := exists_disturbed arena (List.ne_nil_of_mem hi)
  have hperm := disturbed.sort_perm (chart.get first last cat)
  obtain ⟨k, hk⟩ := List.mem_iff_getElem?.mp hi
  obtain ⟨m, hm⟩ := List.mem_iff_getElem?.mp (hperm.mem_iff.mpr hi)
  -- what is written before sorting
  have hunsorted : (notePlaces noteUnsorted arena (chart.get first last cat)).get i =
      (arena.get i).notedUnsorted arena k :=
    Arena.get_notePlaces (fun _ _ _ => rfl) (fun _ _ place _ => Derivation.notedUnsorted_congr place) hnodup
      (hchildren i hi) (hlt i hi) hk
  obtain ⟨hkids, hpre, hmax⟩ := hdisturbed.read i
  rw [hunsorted] at hkids hpre hmax
  replace hkids : (disturbed.get i).children = (arena.get i).children := hkids
  replace hpre : (disturbed.get i).preSort = k := by
    rw [hpre, Derivation.notedUnsorted, hfresh i hi]
    rfl
  -- what is written after that
  have hsorted : (chart.prune arena first last cat).2.get i = (disturbed.get i).notedSorted disturbed m := by
    rw [hdisturbed.after]
    refine Arena.get_notePlaces (fun _ _ _ => rfl) (fun _ _ place _ => Derivation.notedSorted_congr place)
      (hperm.nodup_iff.mpr hnodup) (fun c hc hmem => ?_) (hdisturbed.size ▸ hlt i hi) hm
    exact hchildren i hi c (hkids ▸ hc) (hperm.mem_iff.mp hmem)
  have hkept : ∀ c ∈ (arena.get i).children, (chart.prune arena first last cat).2.get c = arena.get c :=
    fun c hc => get_prune_of_not_mem (hchildren i hi c hc)
  exact {
    once := hnodup
    preSort := ⟨k, hk, by rw [hsorted]; exact hpre⟩
    postSort := ⟨m, hdisturbed.sort ▸ hm, by rw [hsorted]; rfl⟩
    maxUnsorted := by
      rw [childPlace_congr (hsorted ▸ hkids) hkept, hsorted]
      show (disturbed.get i).maxUnsorted = max (disturbed.get i).preSort _
      rw [hpre, hmax]
      rfl
    maxBeam := by
      have hbefore : ∀ c ∈ (arena.get i).children, disturbed.get c = arena.get c :=
        fun c hc => hdisturbed.others c (hchildren i hi c hc)
      rw [childPlace_congr (hsorted ▸ hkids) hkept, ← childPlace_congr hkids hbefore, hsorted]
      rfl }

end Chart

/-! ## Trees -/

/-- **The largest one of the children's places**, or `-1`. -/
theorem isGreatest_childPlace (place : Derivation α → Int) (arena : Arena α) (d : Derivation α) :
    IsGreatest (insert (-1) {x | ∃ c ∈ d.children, x = place (arena.get c)}) (childPlace place arena d) := by
  unfold childPlace
  generalize (-1 : Int) = start
  induction d.children generalizing start with
  | nil => simp
  | cons c rest ih =>
    rw [List.foldl_cons]
    obtain ⟨hmem, hmax⟩ := ih (max start (place (arena.get c)))
    refine ⟨?_, ?_⟩
    · rcases hmem with he | ⟨c', hc', he⟩
      · rw [he]
        rcases max_choice start (place (arena.get c)) with h | h
        · exact .inl h
        · exact .inr ⟨c, List.mem_cons_self, h⟩
      · exact .inr ⟨c', List.mem_cons_of_mem _ hc', he⟩
    · have hstart := hmax (Set.mem_insert _ _)
      rintro x (rfl | ⟨c', hc', rfl⟩)
      · exact (le_max_left _ _).trans hstart
      · rcases List.mem_cons.mp hc' with rfl | hc'
        · exact (le_max_right _ _).trans hstart
        · exact hmax (.inr ⟨c', hc', rfl⟩)

namespace Arena

variable {arena : Arena α}

/-- Whether a derivation was made of another one. -/
def Child (arena : Arena α) (i j : Nat) : Prop := j ∈ (arena.get i).children

/-- A tree is in the arena if each derivation stands behind its children. -/
theorem lt_size_of_reflTransGen {i j : Nat}
    (hchildren : ∀ i < arena.size, ∀ j ∈ (arena.get i).children, j < i) (hi : i < arena.size)
    (h : Relation.ReflTransGen arena.Child i j) : j < arena.size := by
  induction h with
  | refl => exact hi
  | tail _ hchild ih => exact (hchildren _ ih _ hchild).trans ih

/-- **The largest place in a tree.** If each derivation has noted the larger one of its own place and what its children
have noted, then it has noted the largest place in its tree. -/
theorem isGreatest_place {own noted : Derivation α → Int}
    (hchildren : ∀ i < arena.size, ∀ j ∈ (arena.get i).children, j < i)
    (hown : ∀ i < arena.size, 0 ≤ own (arena.get i))
    (hnoted : ∀ i < arena.size,
      noted (arena.get i) = max (own (arena.get i)) (childPlace noted arena (arena.get i))) :
    ∀ i < arena.size, IsGreatest {x | ∃ j, Relation.ReflTransGen arena.Child i j ∧ x = own (arena.get j)}
      (noted (arena.get i)) := by
  intro i
  induction i using Nat.strongRecOn with
  | ind i ih =>
    intro hi
    obtain ⟨hmem, hmax⟩ := isGreatest_childPlace noted arena (arena.get i)
    have hchild : ∀ c ∈ (arena.get i).children, IsGreatest
        {x | ∃ j, Relation.ReflTransGen arena.Child c j ∧ x = own (arena.get j)} (noted (arena.get c)) :=
      fun c hc => ih c (hchildren i hi c hc) ((hchildren i hi c hc).trans hi)
    rw [hnoted i hi]
    refine ⟨?_, ?_⟩
    · rcases hmem with he | ⟨c, hc, he⟩
      · refine ⟨i, .refl, max_eq_left ?_⟩
        rw [he]
        exact le_trans (by decide) (hown i hi)
      · rcases max_choice (own (arena.get i)) (childPlace noted arena (arena.get i)) with h | h
        · exact ⟨i, .refl, h⟩
        · obtain ⟨j, hj, hown⟩ := (hchild c hc).1
          exact ⟨j, .head hc hj, h.trans (he.trans hown)⟩
    · rintro x ⟨j, hj, rfl⟩
      rcases hj.cases_head with rfl | ⟨c, hc, hj⟩
      · exact le_max_left _ _
      · calc own (arena.get j)
            ≤ noted (arena.get c) := (hchild c hc).2 ⟨j, hj, rfl⟩
          _ ≤ childPlace noted arena (arena.get i) := hmax (.inr ⟨c, hc, rfl⟩)
          _ ≤ _ := le_max_right _ _

end Arena

end Parlance
