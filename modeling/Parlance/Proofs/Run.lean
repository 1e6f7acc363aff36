import Parlance.Proofs.Seed
import Parlance.Proofs.Unfolding

/-!
# `Proofs.Run` — what holds of a whole bottom-up parse

A parse of a text does two things only: it puts derivations in, and it prunes cells. What holds at the start and is
kept by both holds at the end. This is how the parse is known to drop nothing as long as its cells fit into the
beam, and to number the children of a derivation below it.

## Contents
- **Induction.** `run_induct`.
- **The beam.** `fellOff_of_maxCell` and `fellOff_of_length`, two ways to tell that nothing was dropped.
- **Children.** `Descending`.
-/

namespace Parlance

open Progress

variable {α : Type} [Score α]

namespace BottomUp

variable {task : Task α} {first last : Nat} {p q : Progress α}

/-! ## Induction -/

/-- **Kept by a parse**: by putting derivations in, and by pruning. -/
structure Kept (task : Task α) (P : Progress α → Prop) : Prop where
  grow : ∀ p q ds, p.Sound task → Grown p ds q → (∀ d ∈ ds, ∀ c ∈ d.children, c < p.arena.size) → P p → P q
  prune : ∀ p first last pruned cat, p.Sound task → P p → P (pruneOnce first last (p, pruned) cat).1

variable {P : Progress α → Prop} {rules unaries : List Rule}

theorem Kept.applyAll (hP : Kept task P) (hlim : task.limit = none) (hp : p.Sound task) (hf : first < last)
    (hl : last ≤ task.length) {l : List Application}
    (ha : ∀ a ∈ l, FromChart task p.chart rules first last [] a) (h : BottomUp.applyAll task p l = .ok q)
    (hold : P p) : P q := by
  obtain ⟨ds, hg, hchildren, -⟩ := grown_trees hlim (fun a hm => (ha a hm).fits hp hf hl) h
  exact hP.grow p q ds hp hg hchildren hold

theorem Kept.applyUnary (hP : Kept task P) (hlim : task.limit = none) (hq : task.beam.Quiet)
    (hp : p.Sound task) (hf : first < last) (hl : last ≤ task.length) {rule : Rule} (hr : rule ∈ rules)
    {pruned : List String} {state : Progress α × List String}
    (h : BottomUp.applyUnary task first last (p, pruned) rule = .ok state) (hold : P p) : P state.1 := by
  rw [applyUnary_eq_ok_iff] at h
  split at h
  · rename_i hb
    exact hP.applyAll hlim (sound_pruneOnce hq hp first last pruned rule.target) hf hl
      (fun a ha => fromChart_unary hr hb ha) h.1 (hP.prune p first last pruned rule.target hp hold)
  · rw [h]
    exact hold

theorem Kept.buildSpan (hP : Kept task P) (hlim : task.limit = none) (hq : task.beam.Quiet)
    (hr : Ready rules unaries) (hp : p.Sound task) (hf : first < last) (hl : last ≤ task.length)
    (h : BottomUp.buildSpan task (trieOf rules) unaries p (first, last) = .ok q) (hold : P p) : P q := by
  obtain ⟨p₁, p₂, pruned, h₁, h₂, rfl⟩ := (buildSpan_eq_ok_iff hlim hr hp hf hl).mp h
  have hfrom := fun a (ha : a ∈ coverings task p.chart first last first (trieOf rules) []) =>
    fromChart_coverings hp.distinct ha
  obtain ⟨hs₁, -⟩ := step_applyAll hlim hr.cats hp hf hl hfrom h₁
  obtain ⟨hs₂, hP₂⟩ := foldlM_induct
    (P := fun _ (s : Progress α × List String) => s.1.Sound task ∧ P s.1)
    ⟨hs₁, hP.applyAll hlim hp hf hl hfrom h₁ hold⟩ (by
      rintro pre rule post ⟨p', pruned'⟩ s' hlist ⟨hs, hold'⟩ hstep
      have hmem : rule ∈ rules := ((UnaryOrder.mem_sort hr.sorted).mp (hlist ▸ by simp)).1
      exact ⟨(step_applyUnary hlim hq hr.cats hs hf hl hmem hstep).1,
        hP.applyUnary hlim hq hs hf hl hmem hstep hold'⟩) h₂
  refine (foldl_induct (P := fun _ (s : Progress α × List String) => s.1.Sound task ∧ P s.1)
    (p₂.chart.cats first last) (p₂, pruned) (f := pruneOnce first last) ⟨hs₂, hP₂⟩ ?_).2
  rintro _ cat _ ⟨p', pruned'⟩ _ ⟨hs, hold'⟩
  exact ⟨sound_pruneOnce hq hs first last pruned' cat, hP.prune p' first last pruned' cat hs hold'⟩

/-- **Induction over a parse.** -/
theorem run_induct (hP : Kept task P) (hlim : task.limit = none) (hq : task.beam.Quiet)
    (hr : Ready rules unaries) (hstart : P (startWithTerminals task))
    (h : run task (trieOf rules) unaries = .ok p) : P p := by
  obtain ⟨hg, -⟩ := grown_seed task
  have hseed : P (seed task) := hP.grow _ _ _ (sound_start task) hg (fun d hd c hc => by
    rw [(mem_ratedTerminals hd).2.2.2] at hc
    cases hc) hstart
  refine (foldlM_induct (P := fun _ q => q.Sound task ∧ P q) ⟨sound_seed task, hseed⟩ ?_ h).2
  rintro pre ⟨first, last⟩ post q r hspans ⟨hs, hold⟩ hstep
  obtain ⟨hf, hl⟩ := mem_spansByLength.mp (hspans ▸ by simp : (first, last) ∈ spansByLength task.length)
  exact ⟨(step_buildSpan hlim hq hr hs hf hl hstep).1, hP.buildSpan hlim hq hr hs hf hl hstep hold⟩

/-! ## The beam -/

/-- The cell that pruning cuts is larger than the beam. -/
theorem size_lt_of_fellOff_pruneOnce (hq : task.beam.Quiet) (htop : task.beam.policy = .topK)
    (hp : p.Sound task) {pruned : List String} {cat : String}
    (hfell : (pruneOnce first last (p, pruned) cat).1.chart.stats.fellOff = true) :
    p.chart.stats.fellOff = true ∨ cat ∉ pruned ∧ task.beam.size < (p.chart.get first last cat).length := by
  rw [fellOff_pruneOnce (hp.beam ▸ hq : p.chart.beam.Quiet), Bool.or_eq_true, Bool.and_eq_true,
    decide_eq_true_eq, decide_eq_true_eq, hp.beam, Beam.length_best htop] at hfell
  refine hfell.imp_right fun h => ⟨h.1, ?_⟩
  have := h.2
  omega

/-- **If no cell was larger than the beam, nothing was dropped.** -/
theorem fellOff_of_maxCell (hlim : task.limit = none) (hq : task.beam.Quiet)
    (htop : task.beam.policy = .topK) (hr : Ready rules unaries)
    (h : run task (trieOf rules) unaries = .ok p) (hmax : p.chart.stats.maxCell ≤ task.beam.size) :
    p.chart.stats.fellOff = false := by
  have hkept : Kept task fun p => p.chart.stats.fellOff = true → task.beam.size < p.chart.stats.maxCell := by
    refine ⟨fun p q ds _ hg _ hold hfell => ?_, fun p first last pruned cat hp hold hfell => ?_⟩
    · rw [hg.maxCell]
      exact hold (hg.fellOff ▸ hfell)
    · have hle := maxCell_pruneOnce p pruned first last cat
      rcases size_lt_of_fellOff_pruneOnce hq htop hp hfell with hfell | ⟨hmem, hlt⟩
      · exact Nat.lt_of_lt_of_le (hold hfell) hle
      · rw [pruneOnce_of_not_mem hmem]
        exact Nat.lt_of_lt_of_le hlt (Chart.maxCell_prune p.chart p.arena first last cat).2
  have hrun := run_induct hkept hlim hq hr (fun hfell => nomatch hfell) h
  rw [Bool.eq_false_iff]
  intro hfell
  exact Nat.not_lt.mpr hmax (hrun hfell)

/-- **If every cell is smaller than the beam, nothing was dropped.** -/
theorem fellOff_of_length (hlim : task.limit = none) (hq : task.beam.Quiet)
    (htop : task.beam.policy = .topK) (hr : Ready rules unaries)
    (h : run task (trieOf rules) unaries = .ok p)
    (hlen : ∀ f l c, (p.chart.get f l c).length < task.beam.size) : p.chart.stats.fellOff = false := by
  have hkept : Kept task fun p => p.chart.stats.fellOff = true →
      ∃ f l c, task.beam.size ≤ (p.chart.get f l c).length := by
    refine ⟨fun p q ds _ hg _ hold hfell => ?_, fun p first last pruned cat hp hold hfell => ?_⟩
    · obtain ⟨f, l, c, hle⟩ := hold (hg.fellOff ▸ hfell)
      refine ⟨f, l, c, ?_⟩
      rw [hg.get, List.length_append]
      exact Nat.le_add_right_of_le hle
    · -- the cell that is cut fills the beam, and so does one that was cut before
      have hfull : ∀ f l c, task.beam.size ≤ (p.chart.get f l c).length →
          task.beam.size ≤ ((pruneOnce first last (p, pruned) cat).1.chart.get f l c).length := by
        intro f l c hle
        by_cases he : f = first ∧ l = last ∧ c = cat
        · obtain ⟨rfl, rfl, rfl⟩ := he
          rw [get_pruneOnce_self (hp.beam ▸ hq : p.chart.beam.Quiet)]
          split
          · exact hle
          · rw [hp.beam, Beam.length_best htop]
            exact Nat.le_min.mpr ⟨Nat.le_refl _, hle⟩
        · rwa [get_pruneOnce_of_ne he]
      rcases size_lt_of_fellOff_pruneOnce hq htop hp hfell with hfell | ⟨-, hlt⟩
      · obtain ⟨f, l, c, hle⟩ := hold hfell
        exact ⟨f, l, c, hfull f l c hle⟩
      · exact ⟨first, last, cat, hfull first last cat (Nat.le_of_lt hlt)⟩
  have hrun := run_induct hkept hlim hq hr (fun hfell => nomatch hfell) h
  rw [Bool.eq_false_iff]
  intro hfell
  obtain ⟨f, l, c, hle⟩ := hrun hfell
  exact Nat.not_lt.mpr hle (hlen f l c)

/-! ## Children -/

/-- **The children of a derivation were put in before it.** -/
def Descending (p : Progress α) : Prop := ∀ i < p.arena.size, ∀ c ∈ (p.arena.get i).children, c < i

theorem children_get_of_bares {a b : Arena α} (h : a.bares <+: b.bares) {i : Nat} (hi : i < a.size) :
    (b.get i).children = (a.get i).children := by
  have hc := congrArg Derivation.children (Arena.bare_get_of_isPrefix h hi)
  exact hc

theorem Descending.grown {ds : List (Derivation α)} (hp : Descending p) (h : Grown p ds q)
    (hc : ∀ d ∈ ds, ∀ c ∈ d.children, c < p.arena.size) : Descending q := by
  intro i hi c hm
  by_cases hlt : i < p.arena.size
  · rw [children_get_of_bares h.isPrefix hlt] at hm
    exact hp i hlt c hm
  · obtain ⟨k, rfl⟩ := Nat.exists_eq_add_of_le (Nat.le_of_not_lt hlt)
    rw [h.size] at hi
    have hlen : k < ds.length := by omega
    have hk : ds[k]? = some ds[k] := List.getElem?_eq_getElem _
    have hbare := congrArg Derivation.children (h.bare_get hk)
    have hsame : (q.arena.get (p.arena.size + k)).children = ds[k].children := hbare
    rw [hsame] at hm
    exact Nat.lt_of_lt_of_le (hc _ (List.getElem_mem _) c hm) (Nat.le_add_right _ _)

theorem descending_run (hlim : task.limit = none) (hq : task.beam.Quiet) (hr : Ready rules unaries)
    (h : run task (trieOf rules) unaries = .ok p) : Descending p := by
  have hkept : Kept task Descending := by
    refine ⟨fun p q ds _ hg hc hold => hold.grown hg hc, fun p first last pruned cat hp hold i hi c hc => ?_⟩
    have hbares : (pruneOnce first last (p, pruned) cat).1.arena.bares = p.arena.bares :=
      bares_pruneOnce (hp.beam ▸ hq : p.chart.beam.Quiet) cat
    have hi' : i < p.arena.size := by
      rw [← Arena.length_bares, hbares, Arena.length_bares] at hi
      exact hi
    rw [children_get_of_bares (hbares ▸ List.prefix_rfl) hi'] at hc
    exact hold i hi' c hc
  exact run_induct hkept hlim hq hr (fun i hi => nomatch hi) h

end BottomUp

end Parlance
