import Parlance.Proofs.Chart
import Parlance.Proofs.Rounding

/-!
# `Proofs.BeamCut` — what pruning keeps of a cell

Of two derivations the one with the higher score is the better one, and of equal scores the one that was made first.
If no two derivations of a cell were made at once, this ranks all of them, and sorting puts them in the order of their
ranks. A beam that goes by size keeps those that are outranked by fewer derivations than it has room for. A beam that
goes by score drops derivations from the end as long as they lie too far below the best one; since differences keep
the order of scores, that drops all that do.

What pruning leaves of a cell is in order and passes the test of the beam, so that pruning it again changes nothing.

## Contents
- **Ranks.** `Derivation.outranks`, `Arena.MadeApart`, `Arena.ranked_sort`.
- **Cutting lists.** `mem_take_iff_countP`, `mem_dropWhile_iff`.
- **The beam.** `Beam.mem_best_topK`, `Beam.mem_best_probDiff`, `Beam.best_best`.
- **Cells.** `Chart.Cut`, what pruning a cell does, and `Chart.cut_prune`.
-/

namespace Parlance

variable {α : Type} [Score α]

/-! ## Ranks -/

/-- Whether a derivation is better than another one: its score is higher, or it is no lower and the derivation was
made first. -/
def Derivation.outranks (d e : Derivation α) : Bool :=
  Score.lt e.sortKey d.sortKey || (!Score.lt d.sortKey e.sortKey && decide (d.created < e.created))

namespace Derivation

variable [Score.Ordered α] {d e : Derivation α}

theorem outranks_asymm (h : d.outranks e = true) : e.outranks d = false := by
  unfold outranks at h ⊢
  cases hed : Score.lt e.sortKey d.sortKey with
  | true => simp [Score.Ordered.lt_asymm hed]
  | false =>
    rw [hed, Bool.false_or, Bool.and_eq_true, Bool.not_eq_true', decide_eq_true_eq] at h
    obtain ⟨hde, hcreated⟩ := h
    simp [hde, Nat.le_of_lt hcreated]

theorem outranks_of_before (h : d.before e = true) (hne : d.created ≠ e.created) : d.outranks e = true := by
  obtain ⟨hde, hor⟩ := before_iff.mp h
  unfold outranks
  rcases hor with hed | hcreated
  · rw [hed, Bool.true_or]
  · rw [hde, decide_eq_true (Nat.lt_of_le_of_ne hcreated hne), Bool.not_false, Bool.and_true, Bool.or_true]

end Derivation

namespace Arena

/-- Whether a derivation is better than another one, by their numbers. -/
def outranks (arena : Arena α) (i j : Nat) : Bool := (arena.get i).outranks (arena.get j)

/-- No two derivations of a list were made at once. -/
def MadeApart (arena : Arena α) (l : List Nat) : Prop := (l.map fun i => (arena.get i).created).Nodup

variable [Score.Ordered α] {arena : Arena α} {l : List Nat}

theorem outranks_asymm (arena : Arena α) {i j : Nat} (h : arena.outranks i j = true) : arena.outranks j i = false :=
  Derivation.outranks_asymm h

/-- **Sorting puts the better derivation first.** -/
theorem ranked_sort (h : arena.MadeApart l) : (arena.sort l).Pairwise fun i j => arena.outranks i j = true := by
  have hsort : arena.MadeApart (arena.sort l) := ((arena.sort_perm l).map _).nodup_iff.mpr h
  have hapart := List.pairwise_map.mp hsort
  exact (arena.sorted_sort l).imp₂ (fun i j hbefore hne => Derivation.outranks_of_before hbefore hne) hapart

end Arena

/-! ## Cutting lists -/

/-- **The first elements** of a list in the order of a relation are those that few others come before. -/
theorem mem_take_iff_countP {β : Type} {r : β → β → Bool} (hr : ∀ {a b}, r a b = true → r b a = false) {l : List β}
    (hl : l.Pairwise fun a b => r a b = true) (n : Nat) (b : β) :
    b ∈ l.take n ↔ b ∈ l ∧ l.countP (fun a => r a b) < n := by
  induction l generalizing n with
  | nil => simp
  | cons a rest ih =>
    obtain ⟨hfirst, hrest⟩ := List.pairwise_cons.mp hl
    have hself : r a a = false := by
      cases h : r a a with
      | false => rfl
      | true => exact absurd (hr h) (by simp [h])
    cases n with
    | zero => simp
    | succ n =>
      rw [List.take_succ_cons, List.mem_cons, List.mem_cons, ih hrest]
      by_cases hb : b = a
      · -- nothing comes before the first element
        subst hb
        have hnone : rest.countP (fun a => r a b) = 0 :=
          List.countP_eq_zero.mpr fun c hc => by simp [hr (hfirst c hc)]
        simp [hself, hnone]
      · by_cases hmem : b ∈ rest
        · simp [hb, hmem, hfirst b hmem]
        · simp [hb, hmem]

/-- Dropping the elements at one end of a list that do not pass a test leaves those that do, if what follows one that
passes passes as well. -/
theorem mem_dropWhile_iff {β : Type} {p : β → Bool} {l : List β}
    (hl : l.Pairwise fun a b => p a = true → p b = true) (b : β) :
    b ∈ l.dropWhile (fun a => !p a) ↔ b ∈ l ∧ p b = true := by
  induction l with
  | nil => simp
  | cons a rest ih =>
    obtain ⟨hfirst, hrest⟩ := List.pairwise_cons.mp hl
    cases ha : p a with
    | false =>
      rw [List.dropWhile_cons_of_pos (by simp [ha]), ih hrest, List.mem_cons]
      constructor
      · exact fun ⟨hb, hpasses⟩ => ⟨.inr hb, hpasses⟩
      · rintro ⟨rfl | hb, hpasses⟩
        · rw [ha] at hpasses
          cases hpasses
        · exact ⟨hb, hpasses⟩
    | true =>
      rw [List.dropWhile_cons_of_neg (by simp [ha])]
      refine ⟨fun hb => ⟨hb, ?_⟩, fun h => h.1⟩
      rcases List.mem_cons.mp hb with rfl | hb
      · exact ha
      · exact hfirst b hb ha

/-! ## The beam -/

namespace Beam

variable {beam : Beam α} {arena : Arena α} {l : List Nat}

theorem cut_probDiff {threshold : α} (hp : beam.policy = .probDiff threshold) (arena : Arena α) (best : Nat)
    (rest : List Nat) :
    beam.cut arena (best :: rest) =
      ((best :: rest).reverse.dropWhile fun i =>
        !Score.le (arena.score best - arena.score i) (Score.ln threshold)).reverse := by
  unfold cut
  rw [hp]

theorem cut_prefix (beam : Beam α) (arena : Arena α) (l : List Nat) : beam.cut arena l <+: l := by
  unfold cut
  cases beam.policy with
  | topK => exact List.take_prefix _ _
  | probDiff threshold =>
    cases l with
    | nil => exact List.prefix_rfl
    | cons best rest =>
      rw [← List.reverse_suffix, List.reverse_reverse]
      exact List.dropWhile_suffix _

/-- What was cut is not cut further. -/
theorem cut_cut (beam : Beam α) (arena : Arena α) (l : List Nat) :
    beam.cut arena (beam.cut arena l) = beam.cut arena l := by
  cases hp : beam.policy with
  | topK =>
    unfold cut
    rw [hp]
    simp
  | probDiff threshold =>
    cases l with
    | nil => simp [cut, hp]
    | cons best rest =>
      have hprefix := beam.cut_prefix arena (best :: rest)
      cases hcut : beam.cut arena (best :: rest) with
      | nil => simp [cut, hp]
      | cons first others =>
        -- the best one of what is left is the best one of all
        obtain rfl : first = best := by
          rw [hcut] at hprefix
          exact (List.cons_prefix_cons.mp hprefix).1
        rw [cut_probDiff hp] at hcut
        rw [cut_probDiff hp, ← hcut, List.reverse_reverse, List.dropWhile_idempotent]

theorem best_congr {other : Arena α} (h : other.bares = arena.bares) (beam : Beam α) (l : List Nat) :
    beam.best other l = beam.best arena l := by
  unfold best
  rw [Arena.sort_congr h, Arena.cut_congr h]

variable [Score.Ordered α]

theorem sorted_best (beam : Beam α) (arena : Arena α) (l : List Nat) : arena.Sorted (beam.best arena l) :=
  List.Pairwise.sublist (beam.cut_sublist arena _) (arena.sorted_sort l)

/-- **What a beam keeps it keeps again.** -/
theorem best_best (beam : Beam α) (arena : Arena α) (l : List Nat) :
    beam.best arena (beam.best arena l) = beam.best arena l := by
  have hsort := Arena.sort_eq_self (sorted_best beam arena l)
  unfold best at hsort ⊢
  rw [hsort, cut_cut]

theorem ranked_best (h : arena.MadeApart l) (beam : Beam α) :
    (beam.best arena l).Pairwise fun i j => arena.outranks i j = true :=
  List.Pairwise.sublist (beam.cut_sublist arena _) (Arena.ranked_sort h)

/-- **A beam that goes by size** keeps what is outranked by fewer derivations than it has room for. -/
theorem mem_best_topK (hp : beam.policy = .topK) (h : arena.MadeApart l) (i : Nat) :
    i ∈ beam.best arena l ↔ i ∈ l ∧ l.countP (fun j => arena.outranks j i) < beam.size := by
  have hperm := arena.sort_perm l
  unfold best cut
  rw [hp]
  dsimp only
  rw [mem_take_iff_countP (fun h => arena.outranks_asymm h) (Arena.ranked_sort h), hperm.mem_iff, hperm.countP_eq]

/-- **A beam that goes by score** keeps what is no more than so much below the best one. -/
theorem mem_best_probDiff [Score.Subtractive α] {threshold : α} (hp : beam.policy = .probDiff threshold)
    (h : arena.MadeApart l) (hfinite : ∀ i ∈ l, Score.isFinite (arena.score i) = true) (hl : l ≠ []) :
    ∃ best ∈ l, (∀ i ∈ l, i ≠ best → arena.outranks best i = true) ∧
      ∀ i, i ∈ beam.best arena l ↔
        i ∈ l ∧ Score.le (arena.score best - arena.score i) (Score.ln threshold) = true := by
  have hperm := arena.sort_perm l
  have hranked := Arena.ranked_sort h
  have hsorted := arena.sorted_sort l
  unfold Beam.best
  cases hs : arena.sort l with
  | nil =>
    rw [hs] at hperm
    exact absurd hperm.nil_eq.symm hl
  | cons best rest =>
    rw [hs] at hperm hranked hsorted
    have hbest : best ∈ l := hperm.mem_iff.mp List.mem_cons_self
    refine ⟨best, hbest, fun i hi hne => ?_, fun i => ?_⟩
    · have hi := hperm.mem_iff.mpr hi
      exact (List.pairwise_cons.mp hranked).1 i ((List.mem_cons.mp hi).resolve_left hne)
    · have hkey : ∀ j ∈ l, (arena.get j).sortKey = arena.score j := fun j hj =>
        if_neg (Bool.eq_false_iff.mp (Score.Subtractive.isNaN_of_isFinite (hfinite j hj)))
      -- what stands before a derivation that is close enough to the best one is as close
      have hpasses : (best :: rest).Pairwise fun j k =>
          Score.le (arena.score best - arena.score k) (Score.ln threshold) = true →
            Score.le (arena.score best - arena.score j) (Score.ln threshold) = true := by
        refine hsorted.imp_of_mem fun {j k} hj hk hjk => ?_
        have hj := hperm.mem_iff.mp hj
        have hk := hperm.mem_iff.mp hk
        have hlt := (Derivation.before_iff.mp hjk).1
        rw [hkey j hj, hkey k hk] at hlt
        exact Score.Subtractive.le_sub (hfinite best hbest) (hfinite j hj) (hfinite k hk) hlt
      rw [cut_probDiff hp, List.mem_reverse,
        mem_dropWhile_iff (p := fun j => Score.le (arena.score best - arena.score j) (Score.ln threshold))
          (List.pairwise_reverse.mpr hpasses),
        List.mem_reverse, hperm.mem_iff]

end Beam

/-! ## Cells -/

namespace Chart

variable {chart : Chart α} {arena : Arena α} {first last : Nat} {cat : String}

/-- **The largest cell** so far, after pruning one. -/
theorem maxCell_prune_eq (chart : Chart α) (arena : Arena α) (first last : Nat) (cat : String) :
    (chart.prune arena first last cat).1.stats.maxCell =
      max chart.stats.maxCell (chart.get first last cat).length := by
  by_cases h : chart.get first last cat = []
  · rw [prune_of_empty arena h, h, List.length_nil, Nat.max_zero]
  · unfold prune
    rw [if_neg (by simpa using h)]
    dsimp only
    rw [stats_setCell]
    unfold Stats.noteCell
    split
    · exact (Nat.max_eq_right (Nat.le_of_lt ‹_›)).symm
    · exact (Nat.max_eq_left (Nat.le_of_not_lt ‹_›)).symm

/-- **Pruning sets the mark for dropped derivations** iff it drops one. -/
theorem fellOff_prune_iff (hq : chart.beam.Quiet) (hd : arena.MadeApart (chart.get first last cat)) :
    (chart.prune arena first last cat).1.stats.fellOff = true ↔
      chart.stats.fellOff = true ∨
        ∃ i ∈ chart.get first last cat, i ∉ (chart.prune arena first last cat).1.get first last cat := by
  rw [fellOff_prune hq, get_prune_self hq, Bool.or_eq_true, decide_eq_true_eq]
  refine or_congr_right ?_
  have hsub := chart.beam.best_subperm arena (chart.get first last cat)
  constructor
  · intro hlt
    by_contra hnone
    push Not at hnone
    have hnodup : (chart.get first last cat).Nodup := hd.of_map _
    have hle := (hnodup.subperm hnone).length_le
    omega
  · rintro ⟨i, hi, hdropped⟩
    by_contra hle
    exact hdropped ((Beam.best_perm (by omega)).mem_iff.mpr hi)

/-- **Pruning again** leaves all cells as they are. -/
theorem cells_prune_prune [Score.Ordered α] (hq : chart.beam.Quiet) :
    ((chart.prune arena first last cat).1.prune (chart.prune arena first last cat).2 first last cat).1.cells =
      (chart.prune arena first last cat).1.cells := by
  have hkept : (chart.prune arena first last cat).1.get first last cat =
      chart.beam.best arena (chart.get first last cat) := get_prune_self hq arena cat
  have hbares : (chart.prune arena first last cat).2.bares = arena.bares := bares_prune hq arena cat
  have hbeam : (chart.prune arena first last cat).1.beam = chart.beam := beam_prune arena cat
  generalize chart.prune arena first last cat = after at *
  by_cases h : after.1.get first last cat = []
  · rw [prune_of_empty _ h]
  · obtain ⟨stats, drawn, kept, he, -, -, -, hagain⟩ := prune_of_ne_nil after.2 h
    have hsame : kept = after.1.get first last cat := by
      rw [(hagain (hbeam ▸ hq)).1, hbeam, Beam.best_congr hbares, hkept, Beam.best_best]
    have hget : after.1.get first last cat =
        Chart.get { after.1 with stats, drawn } first last cat := rfl
    rw [he, hsame, hget, setCell_get]

end Chart

/-- **What pruning a cell does**, going by the derivations as they were before. -/
structure Chart.Cut (chart : Chart α) (arena : Arena α) (first last : Nat) (cat : String) : Prop where
  /-- A beam that goes by size keeps what is outranked by fewer derivations than it has room for. -/
  topK : chart.beam.policy = .topK → ∀ i, i ∈ (chart.prune arena first last cat).1.get first last cat ↔
    i ∈ chart.get first last cat ∧
      (chart.get first last cat).countP (fun j => arena.outranks j i) < chart.beam.size
  /-- A beam that goes by score keeps what is at most the logarithm of the threshold below the best one. -/
  probDiff : ∀ threshold, chart.beam.policy = .probDiff threshold →
    (∀ i ∈ chart.get first last cat, Score.isFinite (arena.score i) = true) → chart.get first last cat ≠ [] →
    ∃ best ∈ chart.get first last cat,
      (∀ i ∈ chart.get first last cat, i ≠ best → arena.outranks best i = true) ∧
      ∀ i, i ∈ (chart.prune arena first last cat).1.get first last cat ↔
        i ∈ chart.get first last cat ∧
          Score.le (arena.score best - arena.score i) (Score.ln threshold) = true
  /-- Better derivations come first. -/
  ranked : ((chart.prune arena first last cat).1.get first last cat).Pairwise fun i j => arena.outranks i j = true
  fellOff : (chart.prune arena first last cat).1.stats.fellOff = true ↔
    chart.stats.fellOff = true ∨
      ∃ i ∈ chart.get first last cat, i ∉ (chart.prune arena first last cat).1.get first last cat
  maxCell : (chart.prune arena first last cat).1.stats.maxCell =
    max chart.stats.maxCell (chart.get first last cat).length
  /-- No other cell changes. -/
  others : ∀ f l c, ¬(f = first ∧ l = last ∧ c = cat) →
    (chart.prune arena first last cat).1.get f l c = chart.get f l c
  cats : ∀ f l, (chart.prune arena first last cat).1.cats f l = chart.cats f l
  /-- Pruning again changes no cell. -/
  again : ((chart.prune arena first last cat).1.prune (chart.prune arena first last cat).2 first last cat).1.cells =
    (chart.prune arena first last cat).1.cells

/-- **Pruning without noise is exact.** If no two derivations of a cell were made at once, it keeps exactly those that
the beam has room for, in order, and notes whether it dropped any. -/
theorem Chart.cut_prune [Score.Ordered α] [Score.Subtractive α] {chart : Chart α} {arena : Arena α} {first last : Nat}
    {cat : String} (hq : chart.beam.Quiet) (hd : arena.MadeApart (chart.get first last cat)) :
    chart.Cut arena first last cat := by
  have hkept : (chart.prune arena first last cat).1.get first last cat =
      chart.beam.best arena (chart.get first last cat) := get_prune_self hq arena cat
  have htopK : chart.beam.policy = .topK → ∀ i, i ∈ (chart.prune arena first last cat).1.get first last cat ↔
      i ∈ chart.get first last cat ∧
        (chart.get first last cat).countP (fun j => arena.outranks j i) < chart.beam.size := by
    intro hp i
    rw [hkept]
    exact Beam.mem_best_topK hp hd i
  have hranked : ((chart.prune arena first last cat).1.get first last cat).Pairwise
      fun i j => arena.outranks i j = true := by
    rw [hkept]
    exact Beam.ranked_best hd chart.beam
  exact
    { topK := htopK
      probDiff := fun threshold hp hfinite hne => hkept ▸ Beam.mem_best_probDiff hp hd hfinite hne
      ranked := hranked
      fellOff := fellOff_prune_iff hq hd
      maxCell := maxCell_prune_eq chart arena first last cat
      others := fun f l c hn => get_prune_of_ne arena hn
      cats := cats_prune arena cat
      again := cells_prune_prune hq }

/-- A chart with derivations of given scores in one cell. -/
def sampleCell (beam : Beam Float) (scores : List Float) : Chart Float × Arena Float :=
  scores.zipIdx.foldl
    (fun (chart, arena) (score, k) =>
      (chart.push 0 2 "$X" k, arena.push { Derivation.terminal "$X" 0 2 "x" "x" k with score }))
    (Chart.new 2 beam, .empty)

/-- A beam for three derivations. -/
def sampleBeam : Beam Float where
  size := 3
  policy := .topK
  noise := 0.0
  draws _ := 0.0

/-- Five scores, of which the first and the last are the lowest ones. -/
def sampleScores : List Float := [1.0, 5.0, 3.0, 4.0, 2.0]

theorem Chart.cut_prune_sample :
    sampleBeam.Quiet ∧
      (sampleCell sampleBeam sampleScores).2.MadeApart ((sampleCell sampleBeam sampleScores).1.get 0 2 "$X") ∧
      (sampleCell sampleBeam sampleScores).1.Cut (sampleCell sampleBeam sampleScores).2 0 2 "$X" ∧
      ∀ i, i ∈ ((sampleCell sampleBeam sampleScores).1.prune (sampleCell sampleBeam sampleScores).2 0 2 "$X").1.get
        0 2 "$X" ↔ i ∈ [1, 2, 3] := by
  have hquiet : sampleBeam.Quiet := by
    unfold Beam.Quiet
    decide +kernel
  have hcell : (sampleCell sampleBeam sampleScores).1.get 0 2 "$X" = [0, 1, 2, 3, 4] := by decide +kernel
  have hapart : (sampleCell sampleBeam sampleScores).2.MadeApart
      ((sampleCell sampleBeam sampleScores).1.get 0 2 "$X") := by
    unfold Arena.MadeApart
    decide +kernel
  have hcut := Chart.cut_prune hquiet hapart
  refine ⟨hquiet, hapart, hcut, fun i => ?_⟩
  have hroom : ∀ j ∈ [0, 1, 2, 3, 4],
      [0, 1, 2, 3, 4].countP (fun k => (sampleCell sampleBeam sampleScores).2.outranks k j) < 3 ↔ j ∈ [1, 2, 3] := by
    decide +kernel
  rw [hcut.topK rfl, hcell]
  constructor
  · exact fun ⟨hi, hlt⟩ => (hroom i hi).mp hlt
  · intro hi
    have hmem : i ∈ [0, 1, 2, 3, 4] := by
      simp only [List.mem_cons, List.not_mem_nil, or_false] at hi ⊢
      omega
    exact ⟨hmem, (hroom i hmem).mpr hi⟩

end Parlance
