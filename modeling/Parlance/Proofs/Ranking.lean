import Parlance.Proofs.Seed
import Parlance.Proofs.Unfolding

/-!
# `Proofs.Ranking` — which derivations pruning keeps, told by their trees

Of two derivations with the same score, the one made first stands first. Derivations are put into the arena in the
order in which they are made, so that a cell which was not sorted yet lists them in that order. What pruning keeps
of such a cell, and in which order, depends on the trees in it only.

## Contents
- **Numbers.** `Numbered`: the numbers to sort by go up in the arena.
- **Cells.** `Ascending`: a cell that was not sorted yet.
- **Pruning.** `Beam.bestTrees`, and what `pruneOnce` does to the trees of a cell.
-/

namespace Parlance

open Progress

variable {α : Type} [Score α]

namespace Progress

variable {task : Task α} {p q : Progress α}

/-! ## Numbers -/

/-- **Derivations are in the arena in the order in which they were made**, but for those that were dropped. -/
def Numbered (task : Task α) (p : Progress α) : Prop :=
  (p.arena.bares.map Derivation.created).Sublist ((List.range p.made).map task.supply)

omit [Score α] in
/-- The list of numbers goes up. -/
theorem Numbered.pairwise (hs : StrictMono task.supply) (h : p.Numbered task) :
    (p.arena.bares.map Derivation.created).Pairwise (· < ·) := by
  refine List.Pairwise.sublist h ?_
  rw [List.pairwise_map]
  exact List.pairwise_lt_range.imp fun hlt => hs hlt

/-- Later derivations have larger numbers. -/
theorem Numbered.lt (hs : StrictMono task.supply) (h : p.Numbered task) {i j : Nat} (hij : i < j)
    (hj : j < p.arena.size) : (p.arena.get i).created < (p.arena.get j).created := by
  have hlen : (p.arena.bares.map Derivation.created).length = p.arena.size := by
    rw [List.length_map, Arena.length_bares]
  have hget : ∀ k (hk : k < (p.arena.bares.map Derivation.created).length),
      (p.arena.bares.map Derivation.created)[k] = (p.arena.get k).created := fun k hk => by
    have hb := congrArg Derivation.created (Arena.bare_get p.arena k)
    rw [List.length_map] at hk
    rw [List.getElem?_eq_getElem hk] at hb
    rw [List.getElem_map]
    exact hb.symm
  have hlt := List.pairwise_iff_getElem.mp (h.pairwise hs) i j (by omega) (by omega) hij
  rwa [hget, hget] at hlt

/-- The numbers that derivations get are those of the outputs that are kept. -/
theorem created_derivations (p : Progress α) (outs : List Output) (n : Nat) :
    ((p.derivations task outs n).map Derivation.created).Sublist
      ((List.range' n outs.length).map task.supply) := by
  have hcreated : ∀ o : Output × Nat, (p.derive task o.1 o.2).created = task.supply o.2 := fun o => by
    obtain ⟨features, score, h⟩ := rated_eq task p _
    rw [derive, h]
    rfl
  have hmap : (p.derivations task outs n).map Derivation.created =
      ((outs.zipIdx n).filter fun o => o.1.isKept task).map fun o => task.supply o.2 := by
    unfold derivations
    rw [List.map_map]
    exact List.map_congr_left fun o _ => hcreated o
  have hrange : (List.range' n outs.length).map task.supply =
      (outs.zipIdx n).map fun o => task.supply o.2 := by
    rw [← List.zipIdx_map_snd n outs, List.map_map]
    rfl
  rw [hmap, hrange]
  exact List.filter_sublist.map _

theorem numbered_seed (task : Task α) : (BottomUp.seed task).Numbered task := by
  obtain ⟨hg, hm⟩ := grown_seed task
  unfold Numbered
  have hcreated : (ratedTerminals task).map Derivation.created =
      (List.range (terminals task.ex).length).map task.supply := by
    have hrated : ∀ d : Derivation α, ((start task).rated task d).created = d.created := fun d => by
      obtain ⟨features, score, h⟩ := rated_eq task (start task) d
      rw [h]
    unfold ratedTerminals terminalDerivations
    rw [List.map_map, List.map_map, List.range_eq_range', ← List.zipIdx_map_snd 0 (terminals task.ex),
      List.map_map]
    exact List.map_congr_left fun t _ => hrated _
  rw [hg.bares, hm, ← hcreated, List.map_append, List.map_map]
  exact List.Sublist.refl _

/-! ## Cells -/

/-- **A cell in the order in which its derivations were put in.** -/
def Ascending (p : Progress α) (first last : Nat) (cat : String) : Prop :=
  (p.chart.get first last cat).Pairwise (· < ·)

omit [Score α] in
theorem pairwise_numbersAt (f l i : Nat) (c : String) (ds : List (Derivation α)) :
    (numbersAt f l c i ds).Pairwise (· < ·) := by
  induction ds generalizing i with
  | nil => exact List.Pairwise.nil
  | cons d ds ih =>
    rw [numbersAt]
    split
    · refine List.pairwise_cons.mpr ⟨fun j hj => ?_, ih (i + 1)⟩
      obtain ⟨k, e, -, -, hk⟩ := mem_numbersAt.mp hj
      omega
    · exact ih (i + 1)

omit [Score α] in
/-- What is put in goes to the end. -/
theorem Ascending.grown {ds : List (Derivation α)} {f l : Nat} {c : String} (h : p.Ascending f l c)
    (hp : p.Bounded) (hg : Grown p ds q) : q.Ascending f l c := by
  unfold Ascending
  rw [hg.get, List.pairwise_append]
  refine ⟨h, pairwise_numbersAt f l _ c ds, fun i hi j hj => ?_⟩
  obtain ⟨k, d, -, -, hk⟩ := mem_numbersAt.mp hj
  have := hp f l c i hi
  omega

end Progress

/-! ## Pruning -/

/-- The score that a tree is sorted by. -/
def DerivationTree.sortKey (t : DerivationTree α) : α :=
  if Score.isNaN t.label.score then Score.negInf else t.label.score

/-- Whether a tree may stand before another one, given where they stood. -/
def DerivationTree.before (a b : DerivationTree α × Nat) : Bool :=
  (Score.order b.1.sortKey a.1.sortKey).then (Ord.compare a.2 b.2) != .gt

/-- Trees sorted by score, of equal ones the one that stood first. -/
def DerivationTree.sort (l : List (DerivationTree α)) : List (DerivationTree α) :=
  (l.zipIdx.mergeSort DerivationTree.before).map Prod.fst

/-- The sorted trees that there is room for. -/
def Beam.cutTrees (beam : Beam α) (l : List (DerivationTree α)) : List (DerivationTree α) :=
  match beam.policy with
  | .topK => l.take beam.size
  | .probDiff threshold =>
    match l with
    | [] => []
    | best :: _ =>
      (l.reverse.dropWhile fun t =>
        !Score.le (best.label.score - t.label.score) (Score.ln threshold)).reverse

/-- **The trees that pruning keeps.** -/
def Beam.bestTrees (beam : Beam α) (l : List (DerivationTree α)) : List (DerivationTree α) :=
  beam.cutTrees (DerivationTree.sort l)

@[simp] theorem Beam.bestTrees_nil (beam : Beam α) : beam.bestTrees [] = [] := by
  unfold Beam.bestTrees DerivationTree.sort Beam.cutTrees
  rw [List.zipIdx_nil, List.mergeSort_nil]
  cases beam.policy with
  | topK => exact List.take_nil
  | probDiff threshold => rfl

theorem Beam.map_unfold_cut (beam : Beam α) (arena : Arena α) (l : List Nat) :
    (beam.cut arena l).map arena.unfold = beam.cutTrees (l.map arena.unfold) := by
  unfold Beam.cut Beam.cutTrees
  cases beam.policy with
  | topK => exact List.map_take
  | probDiff threshold =>
    cases l with
    | nil => rfl
    | cons best rest =>
      show _ = (((best :: rest).map arena.unfold).reverse.dropWhile fun t =>
        !Score.le ((arena.unfold best).label.score - t.label.score) (Score.ln threshold)).reverse
      have hdrop : (fun t : DerivationTree α =>
            !Score.le ((arena.unfold best).label.score - t.label.score) (Score.ln threshold)) ∘ arena.unfold =
          fun i => !Score.le (arena.score best - arena.score i) (Score.ln threshold) := funext fun i => by
        rw [Function.comp_apply, Arena.label_unfold, Arena.label_unfold]
        rfl
      rw [← List.map_reverse, List.dropWhile_map, ← List.map_reverse, hdrop]

/-- **Sorting a cell that was not sorted yet** sorts its trees. Derivations are compared by their numbers only if
their scores are equal, and then they stand as they stood. -/
theorem Arena.map_unfold_sort {task : Task α} {p : Progress α} (hs : StrictMono task.supply)
    (hn : p.Numbered task) {l : List Nat} (hl : l.Pairwise (· < ·)) (hb : ∀ i ∈ l, i < p.arena.size) :
    (p.arena.sort l).map p.arena.unfold = DerivationTree.sort (l.map p.arena.unfold) := by
  have hnodup : l.Nodup := hl.imp Nat.ne_of_lt
  have hcreated : ∀ m k (hm : m < l.length) (hk : k < l.length),
      Ord.compare (p.arena.get l[m]).created (p.arena.get l[k]).created = Ord.compare m k := by
    intro m k hm hk
    have hlt : ∀ m k (hm : m < l.length) (hk : k < l.length), m < k →
        (p.arena.get l[m]).created < (p.arena.get l[k]).created := fun m k hm hk h =>
      hn.lt hs (List.pairwise_iff_getElem.mp hl m k hm hk h) (hb _ (List.getElem_mem hk))
    rcases Nat.lt_trichotomy m k with h | rfl | h
    · rw [Nat.compare_eq_lt.mpr h, Nat.compare_eq_lt.mpr (hlt m k hm hk h)]
    · rw [Nat.compare_eq_eq.mpr rfl, Nat.compare_eq_eq.mpr rfl]
    · rw [Nat.compare_eq_gt.mpr h, Nat.compare_eq_gt.mpr (hlt k m hk hm h)]
  -- a number stands for its tree and its position in the cell
  let place : Nat → DerivationTree α × Nat := fun i => (p.arena.unfold i, l.idxOf i)
  have hplace : l.map place = (l.map p.arena.unfold).zipIdx := by
    refine List.ext_getElem (by simp) fun k hk hk' => ?_
    rw [List.length_map] at hk
    rw [List.getElem_map, List.getElem_zipIdx, List.getElem_map, Nat.zero_add]
    show (p.arena.unfold l[k], l.idxOf l[k]) = _
    rw [hnodup.idxOf_getElem]
  have hsort : (p.arena.sort l).map place = (l.map place).mergeSort DerivationTree.before := by
    refine List.map_mergeSort fun i hi j hj => ?_
    obtain ⟨m, hm, rfl⟩ := List.getElem_of_mem hi
    obtain ⟨k, hk, rfl⟩ := List.getElem_of_mem hj
    unfold Derivation.before Derivation.compare DerivationTree.before
    show _ = ((Score.order (p.arena.unfold l[k]).sortKey (p.arena.unfold l[m]).sortKey).then
      (Ord.compare (l.idxOf l[m]) (l.idxOf l[k])) != .gt)
    rw [hcreated m k hm hk, hnodup.idxOf_getElem, hnodup.idxOf_getElem]
    unfold DerivationTree.sortKey
    simp only [Arena.label_unfold]
    rfl
  unfold DerivationTree.sort
  rw [← hplace, ← hsort, List.map_map]
  rfl

/-- **What pruning keeps of a cell that was not sorted yet** are the best of its trees. -/
theorem Arena.map_unfold_best {task : Task α} {p : Progress α} (hs : StrictMono task.supply)
    (hn : p.Numbered task) (beam : Beam α) {l : List Nat} (hl : l.Pairwise (· < ·))
    (hb : ∀ i ∈ l, i < p.arena.size) :
    (beam.best p.arena l).map p.arena.unfold = beam.bestTrees (l.map p.arena.unfold) := by
  unfold Beam.best Beam.bestTrees
  rw [Beam.map_unfold_cut, Arena.map_unfold_sort hs hn hl hb]

namespace BottomUp

variable {task : Task α} {p : Progress α} {pruned : List String} {first last : Nat}

theorem made_pruneOnce (p : Progress α) (pruned : List String) (first last : Nat) (cat : String) :
    (pruneOnce first last (p, pruned) cat).1.made = p.made := by
  by_cases h : cat ∈ pruned
  · rw [pruneOnce_of_mem h]
  · rw [pruneOnce_of_not_mem h]

theorem numbered_pruneOnce (hq : p.chart.beam.Quiet) (hn : p.Numbered task) (cat : String) :
    (pruneOnce first last (p, pruned) cat).1.Numbered task := by
  unfold Numbered
  rw [bares_pruneOnce hq, made_pruneOnce]
  exact hn

/-- Pruning leaves the cells of other categories, and of other spans, as they are. -/
theorem treesAt_pruneOnce_of_ne (hq : p.chart.beam.Quiet) (hp : p.Bounded) {cat c : String} {f l : Nat}
    (hn : ¬(f = first ∧ l = last ∧ c = cat)) :
    (pruneOnce first last (p, pruned) cat).1.treesAt f l c = p.treesAt f l c := by
  exact treesAt_congr hp (bares_pruneOnce hq cat ▸ List.prefix_rfl) (get_pruneOnce_of_ne hn)

/-- **Pruning a cell** keeps the best of its trees, once. -/
theorem treesAt_pruneOnce_self (hs : StrictMono task.supply) (hn : p.Numbered task)
    (hq : p.chart.beam.Quiet) (hp : p.Bounded) {cat : String}
    (hasc : cat ∉ pruned → p.Ascending first last cat) :
    (pruneOnce first last (p, pruned) cat).1.treesAt first last cat =
      if cat ∈ pruned then p.treesAt first last cat
      else p.chart.beam.bestTrees (p.treesAt first last cat) := by
  have hsub := (get_pruneOnce_subperm hq first last pruned cat first last cat).subset
  have htrees : (pruneOnce first last (p, pruned) cat).1.treesAt first last cat =
      ((pruneOnce first last (p, pruned) cat).1.chart.get first last cat).map p.arena.unfold :=
    List.map_congr_left fun i hi =>
      Arena.steady_unfold _ _ (bares_pruneOnce hq cat ▸ List.prefix_rfl) i (hp first last cat i (hsub hi))
  rw [htrees, get_pruneOnce_self hq]
  split
  · rfl
  · rename_i hmem
    exact Arena.map_unfold_best hs hn _ (hasc hmem) (hp first last cat)

end BottomUp

end Parlance
