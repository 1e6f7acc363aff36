import Mathlib.Data.List.Perm.Subperm
import Parlance.Proofs.Arena
import Parlance.Proofs.Table

/-!
# `Proofs.Chart` — what the cells of a chart hold

A chart is read by its cells. Each operation changes one cell, if it changes any, and leaves the others as
they are. Pruning without noise replaces the derivations of a category by the best of them and leaves all
derivations as they are but for their places.

## Contents
- **Cells.** `cellAt`, in terms of which a chart is read, and `HasSpan`.
- **Writing.** `push`, `setCell`.
- **Pruning.** `best`, the derivations that pruning keeps, and what `prune` does to cells, derivations and
  figures.
-/

namespace Parlance

variable {α : Type}

/-! ## Cells -/

namespace Chart

/-- The cell of a span; an empty one for a span that the chart does not have. -/
def cellAt (chart : Chart α) (first last : Nat) : Cell := (chart.cell? first last).getD .empty

/-- Whether the chart has a cell for a span. -/
def HasSpan (chart : Chart α) (first last : Nat) : Prop := (chart.cell? first last).isSome = true

/-- No category stands twice in a cell. -/
def Distinct (chart : Chart α) : Prop := ∀ i j, (chart.cellAt i j).Distinct

theorem get_eq (chart : Chart α) (first last : Nat) (cat : String) :
    chart.get first last cat = ((chart.cellAt first last).get? cat).getD [] := by
  unfold get cellAt
  cases chart.cell? first last <;> rfl

theorem entries_eq (chart : Chart α) (first last : Nat) :
    chart.entries first last = (chart.cellAt first last).toList := by
  unfold entries cellAt
  cases chart.cell? first last <;> rfl

theorem cats_eq (chart : Chart α) (first last : Nat) :
    chart.cats first last = (chart.cellAt first last).keys := by
  unfold cats
  rw [entries_eq]
  rfl

theorem contains_eq (chart : Chart α) (first last : Nat) (cat : String) :
    chart.contains first last cat = (chart.cellAt first last).contains cat := by
  unfold contains cellAt
  cases chart.cell? first last <;> rfl

theorem Distinct.nodup_cats {chart : Chart α} (h : chart.Distinct) (first last : Nat) :
    (chart.cats first last).Nodup := by
  rw [cats_eq]
  exact h first last

/-- A category without a cell has no derivations. -/
theorem get_of_not_mem {chart : Chart α} {first last : Nat} {cat : String}
    (h : cat ∉ (chart.cellAt first last).keys) : chart.get first last cat = [] := by
  have hn : (chart.cellAt first last).get? cat = none := Table.find_eq_none_iff.mpr h
  rw [get_eq, hn, Option.getD_none]

theorem mem_keys_of_mem_get {chart : Chart α} {first last i : Nat} {cat : String}
    (h : i ∈ chart.get first last cat) : cat ∈ (chart.cellAt first last).keys :=
  Classical.byContradiction fun hc => by
    rw [get_of_not_mem hc] at h
    cases h

theorem mem_entries_iff {chart : Chart α} (h : chart.Distinct) {first last : Nat} {cat : String}
    {l : List Nat} :
    (cat, l) ∈ chart.entries first last ↔
      cat ∈ (chart.cellAt first last).keys ∧ l = chart.get first last cat := by
  rw [entries_eq, (h first last).mem_toList_iff, get_eq]
  constructor
  · intro hl
    exact ⟨List.mem_map_of_mem (f := (·.1)) (Table.mem_of_find hl), by rw [hl, Option.getD_some]⟩
  · rintro ⟨hk, rfl⟩
    rw [← Table.contains_iff, Table.contains, Option.isSome_iff_exists] at hk
    obtain ⟨l, hl⟩ := hk
    rw [hl, Option.getD_some]

/-- The entries of a cell are its categories with what is found under them. -/
theorem entries_eq_map {chart : Chart α} (h : chart.Distinct) (first last : Nat) :
    chart.entries first last =
      (chart.cats first last).map fun cat => (cat, chart.get first last cat) := by
  unfold cats
  rw [List.map_map]
  refine (List.map_id _).symm.trans (List.map_congr_left fun entry he => ?_)
  obtain ⟨cat, l⟩ := entry
  have hl : l = chart.get first last cat := ((mem_entries_iff h).mp he).2
  simp [← hl]

/-! ## Writing -/

theorem hasSpan_new {n first last : Nat} (beam : Beam α) (hf : first < n) (hl : last ≤ n) :
    (Chart.new n beam).HasSpan first last := by
  unfold HasSpan cell? Chart.new
  rw [Grid.get?_replicate, if_pos ⟨hf, hl⟩]
  rfl

theorem cellAt_new (n : Nat) (beam : Beam α) (first last : Nat) :
    (Chart.new n beam).cellAt first last = .empty := by
  unfold cellAt cell? Chart.new
  rw [Grid.get?_replicate]
  split <;> rfl

variable {first last : Nat}

theorem hasSpan_push {chart : Chart α} {cat : String} {i f l : Nat} :
    (chart.push first last cat i).HasSpan f l ↔ chart.HasSpan f l := by
  unfold HasSpan cell? push
  by_cases h : f = first ∧ l = last
  · rw [h.1, h.2, Grid.get?_modify_self, Option.isSome_map]
  · rw [Grid.get?_modify_of_ne _ h]

theorem cellAt_push_self {chart : Chart α} (h : chart.HasSpan first last) (cat : String) (i : Nat) :
    (chart.push first last cat i).cellAt first last =
      (chart.cellAt first last).update cat fun old => old.getD [] ++ [i] := by
  unfold HasSpan at h
  rw [Option.isSome_iff_exists] at h
  obtain ⟨cell, hc⟩ := h
  unfold cell? at hc
  simp only [cellAt, cell?, push, Grid.get?_modify_self, hc, Option.map_some, Option.getD_some]

theorem cellAt_push_of_ne (chart : Chart α) {f l : Nat} (h : ¬(f = first ∧ l = last)) (cat : String)
    (i : Nat) : (chart.push first last cat i).cellAt f l = chart.cellAt f l := by
  simp only [cellAt, cell?, push, Grid.get?_modify_of_ne _ h]

/-- A derivation that is pushed stands at the end of its cell. -/
theorem get_push {chart : Chart α} (h : chart.HasSpan first last) (cat : String) (i f l : Nat)
    (c : String) :
    (chart.push first last cat i).get f l c =
      chart.get f l c ++ if f = first ∧ l = last ∧ c = cat then [i] else [] := by
  by_cases hs : f = first ∧ l = last
  · obtain ⟨rfl, rfl⟩ := hs
    rw [get_eq, get_eq, cellAt_push_self h]
    by_cases hc : c = cat
    · rw [hc, Table.get?_update_self]
      simp
    · rw [Table.get?_update_of_ne _ hc]
      simp [hc]
  · rw [get_eq, get_eq, cellAt_push_of_ne chart hs]
    have hn : ¬(f = first ∧ l = last ∧ c = cat) := fun he => hs ⟨he.1, he.2.1⟩
    simp [hn]

theorem hasSpan_setCell {chart : Chart α} {cat : String} {v : List Nat} {f l : Nat} :
    (chart.setCell first last cat v).HasSpan f l ↔ chart.HasSpan f l := by
  unfold setCell
  split
  · unfold HasSpan cell?
    by_cases h : f = first ∧ l = last
    · rw [h.1, h.2, Grid.get?_modify_self, Option.isSome_map]
    · rw [Grid.get?_modify_of_ne _ h]
  · rfl

theorem cellAt_setCell_of_ne (chart : Chart α) {f l : Nat} (h : ¬(f = first ∧ l = last)) (cat : String)
    (v : List Nat) : (chart.setCell first last cat v).cellAt f l = chart.cellAt f l := by
  unfold setCell
  split
  · simp only [cellAt, cell?, Grid.get?_modify_of_ne _ h]
  · rfl

/-- Only a category that is in the cell is replaced. -/
theorem cellAt_setCell_self (chart : Chart α) (cat : String) (v : List Nat) :
    (chart.setCell first last cat v).cellAt first last =
      if cat ∈ (chart.cellAt first last).keys then (chart.cellAt first last).insert cat v
      else chart.cellAt first last := by
  unfold setCell
  rw [contains_eq]
  by_cases h : cat ∈ (chart.cellAt first last).keys
  · rw [if_pos (Table.contains_iff.mpr h), if_pos h]
    unfold cellAt at h ⊢
    unfold cell? at h ⊢
    simp only [Grid.get?_modify_self]
    cases hc : chart.cells.get? first last with
    | none => rw [hc] at h; cases h
    | some cell => rfl
  · rw [if_neg fun hc => h (Table.contains_iff.mp hc), if_neg h]

theorem keys_setCell (chart : Chart α) (cat : String) (v : List Nat) (f l : Nat) :
    ((chart.setCell first last cat v).cellAt f l).keys = (chart.cellAt f l).keys := by
  by_cases hs : f = first ∧ l = last
  · obtain ⟨rfl, rfl⟩ := hs
    rw [cellAt_setCell_self]
    split
    · rename_i h; exact Table.keys_update_of_mem h _
    · rfl
  · rw [cellAt_setCell_of_ne chart hs]

theorem length_setCell (chart : Chart α) (cat : String) (v : List Nat) :
    (chart.setCell first last cat v).length = chart.length := by
  unfold setCell
  split <;> rfl

theorem beam_setCell (chart : Chart α) (cat : String) (v : List Nat) :
    (chart.setCell first last cat v).beam = chart.beam := by
  unfold setCell
  split <;> rfl

theorem stats_setCell (chart : Chart α) (cat : String) (v : List Nat) :
    (chart.setCell first last cat v).stats = chart.stats := by
  unfold setCell
  split <;> rfl

theorem get_setCell_of_ne (chart : Chart α) {cat c : String} {f l : Nat}
    (h : ¬(f = first ∧ l = last ∧ c = cat)) (v : List Nat) :
    (chart.setCell first last cat v).get f l c = chart.get f l c := by
  rw [get_eq, get_eq]
  by_cases hs : f = first ∧ l = last
  · obtain ⟨rfl, rfl⟩ := hs
    have hc : c ≠ cat := fun hc => h ⟨rfl, rfl, hc⟩
    rw [cellAt_setCell_self]
    split
    · rw [Table.insert, Table.get?_update_of_ne _ hc]
    · rfl
  · rw [cellAt_setCell_of_ne chart hs]

theorem get_setCell_self {chart : Chart α} {cat : String} (h : cat ∈ (chart.cellAt first last).keys)
    (v : List Nat) : (chart.setCell first last cat v).get first last cat = v := by
  rw [get_eq, cellAt_setCell_self, if_pos h, Table.insert, Table.get?_update_self, Option.getD_some]

/-- Setting a cell to what it holds changes nothing. -/
theorem setCell_get (chart : Chart α) (first last : Nat) (cat : String) :
    chart.setCell first last cat (chart.get first last cat) = chart := by
  unfold setCell
  split
  case isFalse => rfl
  case isTrue hc =>
    have hcells : chart.cells.modify first last (fun cell => cell.insert cat (chart.get first last cat)) =
        chart.cells := by
      refine chart.cells.modify_eq_self fun cell hcell => Table.insert_eq_self ?_
      unfold contains get cell? at *
      rw [hcell] at hc ⊢
      obtain ⟨l, hl⟩ := Option.isSome_iff_exists.mp hc
      rw [Option.bind_some, hl, Option.getD_some]
    rw [hcells]

end Chart

/-! ## Pruning -/

variable [Score α]

/-- Scores are compared as they are. -/
def Beam.Quiet (beam : Beam α) : Prop := Score.lt Score.zero beam.noise = false

/-- The derivations of a cell that pruning keeps, the best one first. -/
def Beam.best (beam : Beam α) (arena : Arena α) (l : List Nat) : List Nat := beam.cut arena (arena.sort l)

theorem Beam.best_nil (beam : Beam α) (arena : Arena α) : beam.best arena [] = [] := by
  unfold Beam.best Beam.cut
  rw [show arena.sort [] = [] from List.mergeSort_nil]
  cases beam.policy <;> simp

theorem Beam.cut_sublist (beam : Beam α) (arena : Arena α) (l : List Nat) :
    (beam.cut arena l).Sublist l := by
  unfold Beam.cut
  cases beam.policy with
  | topK => exact List.take_sublist _ _
  | probDiff threshold =>
    cases l with
    | nil => exact List.Sublist.refl _
    | cons best rest =>
      have h := List.dropWhile_sublist (l := (best :: rest).reverse)
        fun i => !Score.le (arena.score best - arena.score i) (Score.ln threshold)
      have h' := h.reverse
      rwa [List.reverse_reverse] at h'

theorem Beam.best_subperm (beam : Beam α) (arena : Arena α) (l : List Nat) :
    (beam.best arena l).Subperm l :=
  (beam.cut_sublist arena _).subperm.trans (arena.sort_perm l).subperm

/-- What is as long as before has lost nothing. -/
theorem Beam.best_perm {beam : Beam α} {arena : Arena α} {l : List Nat}
    (hl : l.length ≤ (beam.best arena l).length) : (beam.best arena l).Perm l :=
  (beam.best_subperm arena l).perm_of_length_le hl

/-- A beam that goes by size keeps as many derivations as it has room for. -/
theorem Beam.length_best {beam : Beam α} (hp : beam.policy = .topK) (arena : Arena α) (l : List Nat) :
    (beam.best arena l).length = min beam.size l.length := by
  unfold Beam.best Beam.cut
  rw [hp]
  exact List.length_take.trans (by rw [(arena.sort_perm l).length_eq])

namespace Chart

variable {first last : Nat} {chart : Chart α}

/-- A cell without derivations is left as it is. -/
theorem prune_of_empty (arena : Arena α) {cat : String} (h : chart.get first last cat = []) :
    chart.prune arena first last cat = (chart, arena) := by
  unfold prune
  rw [h]
  rfl

/-- **What pruning does to a cell that has derivations.** It sets the cell, and notes whether anything was dropped;
the largest cell is at least as large as before, and as this one. Without noise the best derivations are left, and
nothing changes about derivations but their places. -/
theorem prune_of_ne_nil (arena : Arena α) {cat : String} (h : chart.get first last cat ≠ []) :
    ∃ stats drawn kept,
      (chart.prune arena first last cat).1 = { chart with stats, drawn }.setCell first last cat kept ∧
      chart.stats.maxCell ≤ stats.maxCell ∧
      (chart.get first last cat).length ≤ stats.maxCell ∧
      stats.fellOff = (chart.stats.fellOff || decide (kept.length < (chart.get first last cat).length)) ∧
      (chart.beam.Quiet → kept = chart.beam.best arena (chart.get first last cat) ∧
        (chart.prune arena first last cat).2.bares = arena.bares) := by
  have hb := Arena.bares_notePlaces (fun a place i => Arena.bares_noteUnsorted a place i) arena
    (chart.get first last cat)
  have hb' : ∀ l, (notePlaces noteSorted (notePlaces noteUnsorted arena (chart.get first last cat)) l).bares
      = arena.bares := fun l =>
    (Arena.bares_notePlaces (fun a place i => Arena.bares_noteSorted a place i) _ l).trans hb
  unfold prune
  rw [if_neg (by simpa using h)]
  refine ⟨_, _, _, rfl, ?_, ?_, ?_, fun hq => ?_⟩
  · unfold Stats.noteCell
    split
    · rename_i hlt; exact Nat.le_of_lt hlt
    · exact Nat.le_refl _
  · unfold Stats.noteCell
    split
    · exact Nat.le_refl _
    · rename_i hlt; exact Nat.le_of_not_lt hlt
  · have hfell : (chart.stats.noteCell first last cat (chart.get first last cat).length).fellOff =
        chart.stats.fellOff := by
      unfold Stats.noteCell
      split <;> rfl
    dsimp only
    rw [hfell, (Arena.sort_perm _ _).length_eq]
  · unfold Beam.Quiet at hq
    simp only [hq, Bool.false_eq_true, if_false]
    refine ⟨?_, hb' _⟩
    rw [Arena.cut_congr (hb' _), Arena.sort_congr hb]
    rfl

/-- **Pruning without noise** leaves the best derivations of the category. -/
theorem get_prune_self (hq : chart.beam.Quiet) (arena : Arena α) (cat : String) :
    (chart.prune arena first last cat).1.get first last cat =
      chart.beam.best arena (chart.get first last cat) := by
  by_cases h : chart.get first last cat = []
  · rw [prune_of_empty arena h, h, Beam.best_nil]
  · obtain ⟨i, hi⟩ := List.exists_mem_of_ne_nil _ h
    obtain ⟨stats, drawn, kept, he, -, -, -, hkept⟩ := prune_of_ne_nil arena h
    have hmem : cat ∈ (Chart.cellAt { chart with stats, drawn } first last).keys :=
      @mem_keys_of_mem_get _ chart _ _ _ _ hi
    rw [he, get_setCell_self hmem, (hkept hq).1]

/-- Pruning leaves every other category, and every other span, as it is. -/
theorem get_prune_of_ne (arena : Arena α) {cat c : String} {f l : Nat}
    (hn : ¬(f = first ∧ l = last ∧ c = cat)) :
    (chart.prune arena first last cat).1.get f l c = chart.get f l c := by
  by_cases h : chart.get first last cat = []
  · rw [prune_of_empty arena h]
  · obtain ⟨stats, drawn, kept, he, -⟩ := prune_of_ne_nil arena h
    rw [he, get_setCell_of_ne _ hn]
    rfl

theorem cats_prune (arena : Arena α) (cat : String) (f l : Nat) :
    (chart.prune arena first last cat).1.cats f l = chart.cats f l := by
  by_cases h : chart.get first last cat = []
  · rw [prune_of_empty arena h]
  · obtain ⟨stats, drawn, kept, he, -⟩ := prune_of_ne_nil arena h
    rw [he, cats_eq, cats_eq, keys_setCell]
    rfl

theorem hasSpan_prune (arena : Arena α) {cat : String} {f l : Nat} :
    (chart.prune arena first last cat).1.HasSpan f l ↔ chart.HasSpan f l := by
  by_cases h : chart.get first last cat = []
  · rw [prune_of_empty arena h]
  · obtain ⟨stats, drawn, kept, he, -⟩ := prune_of_ne_nil arena h
    rw [he]
    exact hasSpan_setCell

@[simp] theorem length_prune (arena : Arena α) (cat : String) :
    (chart.prune arena first last cat).1.length = chart.length := by
  by_cases h : chart.get first last cat = []
  · rw [prune_of_empty arena h]
  · obtain ⟨stats, drawn, kept, he, -⟩ := prune_of_ne_nil arena h
    rw [he]
    exact length_setCell _ _ _

@[simp] theorem beam_prune (arena : Arena α) (cat : String) :
    (chart.prune arena first last cat).1.beam = chart.beam := by
  by_cases h : chart.get first last cat = []
  · rw [prune_of_empty arena h]
  · obtain ⟨stats, drawn, kept, he, -⟩ := prune_of_ne_nil arena h
    rw [he]
    exact beam_setCell _ _ _

/-- The largest cell is at least as large as before, and as the cell that is pruned. -/
theorem maxCell_prune (chart : Chart α) (arena : Arena α) (first last : Nat) (cat : String) :
    chart.stats.maxCell ≤ (chart.prune arena first last cat).1.stats.maxCell ∧
      (chart.get first last cat).length ≤ (chart.prune arena first last cat).1.stats.maxCell := by
  by_cases h : chart.get first last cat = []
  · rw [prune_of_empty arena h, h]
    exact ⟨Nat.le_refl _, Nat.zero_le _⟩
  · obtain ⟨stats, drawn, kept, he, hmax, hlen, -⟩ := prune_of_ne_nil arena h
    rw [he, stats_setCell]
    exact ⟨hmax, hlen⟩

/-- Pruning counts no derivation. -/
theorem total_prune (chart : Chart α) (arena : Arena α) (first last : Nat) (cat : String) :
    (chart.prune arena first last cat).1.stats.total = chart.stats.total := by
  by_cases h : chart.get first last cat = []
  case pos => rw [prune_of_empty arena h]
  case neg =>
    have hnote : (chart.stats.noteCell first last cat (chart.get first last cat).length).total = chart.stats.total := by
      unfold Stats.noteCell
      split <;> rfl
    unfold prune
    rw [if_neg (by simpa using h), stats_setCell]
    exact hnote

/-- Pruning without noise notes whether the best derivations are fewer than all. -/
theorem fellOff_prune (hq : chart.beam.Quiet) (arena : Arena α) (first last : Nat) (cat : String) :
    (chart.prune arena first last cat).1.stats.fellOff =
      (chart.stats.fellOff || decide ((chart.beam.best arena (chart.get first last cat)).length <
        (chart.get first last cat).length)) := by
  by_cases h : chart.get first last cat = []
  · rw [prune_of_empty arena h, h, Beam.best_nil, List.length_nil, decide_eq_false (Nat.lt_irrefl 0),
      Bool.or_false]
  · obtain ⟨stats, drawn, kept, he, -, -, hfell, hkept⟩ := prune_of_ne_nil arena h
    rw [he, stats_setCell, ← (hkept hq).1]
    exact hfell

/-- Pruning without noise changes nothing about derivations but their places. -/
theorem bares_prune (hq : chart.beam.Quiet) (arena : Arena α) (cat : String) :
    (chart.prune arena first last cat).2.bares = arena.bares := by
  by_cases h : chart.get first last cat = []
  · rw [prune_of_empty arena h]
  · obtain ⟨stats, drawn, kept, he, -, -, -, hkept⟩ := prune_of_ne_nil arena h
    exact (hkept hq).2

end Chart

end Parlance
