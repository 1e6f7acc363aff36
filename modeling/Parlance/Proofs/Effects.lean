import Parlance.Proofs.History
import Parlance.Proofs.RuleLocal
import Parlance.Proofs.SearchNumbering

/-!
# `Proofs.Effects` — what an act does to the arena and to the chart

Planting and adding put in one derivation, or none if it is kept out; cutting writes to one cell. So an act changes the
cell that it works on, and leaves all others alone.

## Contents
- **Charts.** What a cell holds after `push`, for spans that the chart has and for others.
- **Adding.** `Adds`: a parse with one derivation more, at most. `adds_carryOut`.
- **Cutting.** What `cutCell` leaves alone.
- **In place.** `InPlace`: what the chart lists stands where it belongs, whatever is done.
- **Parts.** What rules are applied to: derivations of the chart, and of which cells.
-/

namespace Parlance

open Progress

variable {α : Type}

/-! ## Charts -/

namespace Chart

variable {chart : Chart α} {first last f l i j : Nat} {cat c : String}

theorem cellAt_congr {chart' : Chart α} (h : chart'.cells = chart.cells) (f l : Nat) :
    chart'.cellAt f l = chart.cellAt f l := by
  unfold cellAt cell?
  rw [h]

/-- A span that the chart does not have stays without derivations. -/
theorem cellAt_push_of_not_hasSpan (h : ¬ chart.HasSpan first last) (cat : String) (i f l : Nat) :
    (chart.push first last cat i).cellAt f l = chart.cellAt f l := by
  by_cases hs : f = first ∧ l = last
  case neg => exact cellAt_push_of_ne chart hs cat i
  case pos =>
    obtain ⟨rfl, rfl⟩ := hs
    have hnone : chart.cells.get? f l = none := by
      unfold HasSpan cell? at h
      simpa using h
    unfold cellAt cell? push
    rw [Grid.get?_modify_self, hnone]
    rfl

/-- What is pushed goes into its own cell. -/
theorem get_push_of_ne (h : ¬(f = first ∧ l = last ∧ c = cat)) :
    (chart.push first last cat i).get f l c = chart.get f l c := by
  by_cases hspan : chart.HasSpan first last
  case pos => rw [get_push hspan, if_neg h, List.append_nil]
  case neg => rw [get_eq, get_eq, cellAt_push_of_not_hasSpan hspan]

/-- After one number is listed, a cell lists what it did before, and the cell of that number this one. -/
theorem of_mem_get_push (h : j ∈ (chart.push first last cat i).get f l c) :
    j ∈ chart.get f l c ∨ (f = first ∧ l = last ∧ c = cat) ∧ j = i := by
  by_cases hspan : chart.HasSpan first last
  case pos =>
    rw [get_push hspan] at h
    rcases List.mem_append.mp h with h | h
    · exact .inl h
    · split at h
      · exact .inr ⟨by assumption, List.mem_singleton.mp h⟩
      · cases h
  case neg =>
    rw [get_eq, cellAt_push_of_not_hasSpan hspan, ← get_eq] at h
    exact .inl h

theorem of_mem_cats_push (h : c ∈ (chart.push first last cat i).cats f l) :
    c ∈ chart.cats f l ∨ f = first ∧ l = last ∧ c = cat := by
  rw [cats_eq] at h ⊢
  by_cases hs : f = first ∧ l = last
  case neg =>
    rw [cellAt_push_of_ne chart hs] at h
    exact .inl h
  case pos =>
    obtain ⟨rfl, rfl⟩ := hs
    by_cases hspan : chart.HasSpan f l
    case neg =>
      rw [cellAt_push_of_not_hasSpan hspan] at h
      exact .inl h
    case pos =>
      rw [cellAt_push_self hspan, Table.keys_update] at h
      split at h
      · exact .inl h
      · rcases List.mem_append.mp h with h | h
        · exact .inl h
        · exact .inr ⟨rfl, rfl, List.mem_singleton.mp h⟩

/-- No category comes to stand twice in a cell. -/
theorem distinct_push (h : chart.Distinct) : (chart.push first last cat i).Distinct := by
  intro f l
  by_cases hs : f = first ∧ l = last
  case neg =>
    rw [cellAt_push_of_ne chart hs]
    exact h f l
  case pos =>
    obtain ⟨rfl, rfl⟩ := hs
    by_cases hspan : chart.HasSpan f l
    case neg =>
      rw [cellAt_push_of_not_hasSpan hspan]
      exact h f l
    case pos =>
      rw [cellAt_push_self hspan]
      exact (h f l).update _ _

/-- A category that has derivations is in its cell. -/
theorem mem_cats_of_mem_get (h : i ∈ chart.get f l c) : c ∈ chart.cats f l := by
  rw [cats_eq]
  exact mem_keys_of_mem_get h

end Chart

namespace BottomUp

/-! ## Adding -/

/-- **A parse with one derivation more**, or with none if it is kept out. -/
structure Adds (p : Progress α) (d : Derivation α) (q : Progress α) : Prop where
  beam : q.chart.beam = p.chart.beam
  effect : q.arena = p.arena ∧ q.chart.cells = p.chart.cells ∨
    q.arena = p.arena.push d ∧ q.chart.cells = (p.chart.push d.first d.last d.cat p.arena.size).cells

namespace Adds

variable {p q r : Progress α} {d : Derivation α} {f l i : Nat} {c : String}

theorem of_congr (hq : Adds p d q) (harena : r.arena = p.arena) (hcells : r.chart.cells = p.chart.cells)
    (hbeam : r.chart.beam = p.chart.beam) : Adds r d q where
  beam := hq.beam.trans hbeam.symm
  effect := by
    have heffect := hq.effect
    unfold Chart.push at heffect ⊢
    rw [harena, hcells]
    exact heffect

/-- **All cells but one** stay as they are. -/
theorem get_of_ne (h : Adds p d q) (hne : (f, l, c) ≠ (d.first, d.last, d.cat)) :
    q.chart.get f l c = p.chart.get f l c := by
  have hne : ¬(f = d.first ∧ l = d.last ∧ c = d.cat) := fun he => hne (by rw [he.1, he.2.1, he.2.2])
  rcases h.effect with ⟨-, hcells⟩ | ⟨-, hcells⟩
  · rw [Chart.get_eq, Chart.get_eq, Chart.cellAt_congr hcells]
  · rw [Chart.get_eq, Chart.cellAt_congr hcells, ← Chart.get_eq]
    exact Chart.get_push_of_ne hne

/-- A category that is new in a span is that of the derivation. -/
theorem of_mem_cats (h : Adds p d q) (hc : c ∈ q.chart.cats f l) :
    c ∈ p.chart.cats f l ∨ (f, l, c) = (d.first, d.last, d.cat) := by
  rcases h.effect with ⟨-, hcells⟩ | ⟨-, hcells⟩
  · rw [Chart.cats_eq, Chart.cellAt_congr hcells, ← Chart.cats_eq] at hc
    exact .inl hc
  · rw [Chart.cats_eq, Chart.cellAt_congr hcells, ← Chart.cats_eq] at hc
    rcases Chart.of_mem_cats_push hc with hc | ⟨rfl, rfl, rfl⟩
    · exact .inl hc
    · exact .inr rfl

theorem distinct (h : Adds p d q) (hp : p.chart.Distinct) : q.chart.Distinct := by
  intro f l
  rcases h.effect with ⟨-, hcells⟩ | ⟨-, hcells⟩
  · rw [Chart.cellAt_congr hcells]
    exact hp f l
  · rw [Chart.cellAt_congr hcells]
    exact Chart.distinct_push hp f l

theorem size_le (h : Adds p d q) : p.arena.size ≤ q.arena.size := by
  rcases h.effect with ⟨harena, -⟩ | ⟨harena, -⟩
  · rw [harena]
  · rw [harena, Arena.size_push]
    exact Nat.le_succ _

/-- At most one derivation is added. -/
theorem size_le_succ (h : Adds p d q) : q.arena.size ≤ p.arena.size + 1 := by
  rcases h.effect with ⟨harena, -⟩ | ⟨harena, -⟩
  · rw [harena]
    exact Nat.le_succ _
  · rw [harena, Arena.size_push]

/-- What was in the arena before stays there, but for places and scores. -/
theorem isPrefix (h : Adds p d q) : p.arena.bares <+: q.arena.bares := by
  rcases h.effect with ⟨harena, -⟩ | ⟨harena, -⟩
  · rw [harena]
  · rw [harena, Arena.bares_push]
    exact List.prefix_append _ _

theorem arena_get [Score α] (h : Adds p d q) (hi : i < p.arena.size) : q.arena.get i = p.arena.get i := by
  rcases h.effect with ⟨harena, -⟩ | ⟨harena, -⟩
  · rw [harena]
  · rw [harena, Arena.get_push_of_lt hi]

end Adds

variable [Score α] {task : Task α} {p : Progress α}

omit [Score α] in
/-- Adding to a chart is such a step, whether the derivation is kept or not. -/
theorem adds_addToChart (task : Task α) (p : Progress α) (d : Derivation α) : Adds p d (p.addToChart task d) := by
  unfold Progress.addToChart
  split
  · exact ⟨rfl, .inl ⟨rfl, rfl⟩⟩
  · exact ⟨rfl, .inr ⟨rfl, rfl⟩⟩

/-- A derivation that is scored and added. -/
theorem adds_rated (task : Task α) (p : Progress α) (d : Derivation α) :
    Adds p (p.rated task d) ((p.featurize task d).2.addToChart task (p.rated task d)) := by
  have hadds := adds_addToChart task (p.featurize task d).2 (p.rated task d)
  unfold featurize at hadds ⊢
  split at hadds
  case isTrue h =>
    rw [if_pos h]
    exact hadds
  case isFalse h =>
    rw [if_neg h]
    exact hadds.of_congr rfl rfl rfl

/-- The derivation that an act puts in, before it is scored; what a cut puts in does not matter. -/
def Act.fresh (task : Task α) (p : Progress α) : Act α → Derivation α
  | plant d => d
  | add o => (p.make task o.application o.candidate).1
  | cut _ => default

theorem Act.children_fresh {a : Act α} (h : ∀ cell, a ≠ cut cell) : (a.fresh task p).children = a.children := by
  cases a with
  | plant d => rfl
  | add o => rfl
  | cut cell => exact absurd rfl (h cell)

/-- **What planting and adding do.** -/
theorem adds_carryOut {a : Act α} (h : ∀ cell, a ≠ .cut cell) :
    Adds p (p.rated task (a.fresh task p)) (a.carryOut task p) := by
  cases a with
  | plant d => exact adds_rated task p d
  | add o =>
    let q : Progress α := { p with made := p.made + 1 }
    let d := (p.make task o.application o.candidate).1
    have hrated : q.rated task d = p.rated task d := rated_of_arena (p := p) (q := q) rfl d
    show Adds p (p.rated task d) ((q.featurize task d).2.addToChart task (q.rated task d))
    rw [← hrated]
    exact (adds_rated task q d).of_congr rfl rfl rfl
  | cut cell => exact absurd rfl (h cell)

theorem cell_rated {a : Act α} (h : ∀ cell, a ≠ .cut cell) :
    let d := p.rated task (a.fresh task p)
    (d.first, d.last, d.cat) = a.cell := by
  obtain ⟨features, score, hd⟩ := rated_eq task p (a.fresh task p)
  dsimp only
  rw [hd]
  cases a with
  | plant d => rfl
  | add o => rfl
  | cut cell => exact absurd rfl (h cell)

/-! ## Cutting -/

section Cutting

variable {first last f l i : Nat} {cat c : String}

/-- To cut a cell leaves all others as they are. -/
theorem get_cutCell_of_ne (h : (f, l, c) ≠ (first, last, cat)) :
    (cutCell p first last cat).chart.get f l c = p.chart.get f l c :=
  Chart.get_prune_of_ne p.arena fun he => h (by rw [he.1, he.2.1, he.2.2])

theorem get_cutCell_subset : (cutCell p first last cat).chart.get f l c ⊆ p.chart.get f l c := by
  by_cases h : (f, l, c) = (first, last, cat)
  case pos =>
    obtain ⟨rfl, rfl, rfl⟩ := h
    exact Chart.get_prune_subset
  case neg =>
    rw [get_cutCell_of_ne h]
    exact List.Subset.refl _

theorem cats_cutCell : (cutCell p first last cat).chart.cats f l = p.chart.cats f l := Chart.cats_prune p.arena cat f l

theorem size_cutCell : (cutCell p first last cat).arena.size = p.arena.size :=
  Arena.size_eq_of_shapes (Arena.shapes_prune p.chart p.arena first last cat)

end Cutting

/-! ## In place -/

/-- **What the chart lists is in the arena**, and stands in the cell that it belongs in. -/
structure InPlace (task : Task α) (p : Progress α) : Prop where
  beam : p.chart.beam = task.beam
  distinct : p.chart.Distinct
  lt : ∀ f l c, ∀ i ∈ p.chart.get f l c, i < p.arena.size
  isAt : ∀ f l c, ∀ i ∈ p.chart.get f l c, (p.arena.get i).isAt f l c = true

theorem inPlace_start (task : Task α) : InPlace task (startWithTerminals task) := by
  have hempty : ∀ f l, (startWithTerminals task).chart.cellAt f l = .empty := Chart.cellAt_new _ _
  have hget : ∀ f l c, (startWithTerminals task).chart.get f l c = [] := by
    intro f l c
    rw [Chart.get_eq, hempty]
    rfl
  refine ⟨rfl, fun f l => ?_, fun f l c i hi => ?_, fun f l c i hi => ?_⟩
  · rw [hempty]
    exact List.nodup_nil
  · rw [hget] at hi
    cases hi
  · rw [hget] at hi
    cases hi

/-- What is added is listed where it belongs. -/
theorem InPlace.adds {d : Derivation α} {q : Progress α} (h : InPlace task p) (hq : Adds p d q) : InPlace task q where
  beam := hq.beam.trans h.beam
  distinct := hq.distinct h.distinct
  lt f l c i hi := by
    rcases hq.effect with ⟨harena, hcells⟩ | ⟨harena, hcells⟩
    · rw [Chart.get_eq, Chart.cellAt_congr hcells, ← Chart.get_eq] at hi
      rw [harena]
      exact h.lt f l c i hi
    · rw [Chart.get_eq, Chart.cellAt_congr hcells, ← Chart.get_eq] at hi
      rw [harena, Arena.size_push]
      rcases Chart.of_mem_get_push hi with hi | ⟨-, rfl⟩
      · exact Nat.lt_succ_of_lt (h.lt f l c i hi)
      · exact Nat.lt_succ_self _
  isAt f l c i hi := by
    rcases hq.effect with ⟨harena, hcells⟩ | ⟨harena, hcells⟩
    · rw [Chart.get_eq, Chart.cellAt_congr hcells, ← Chart.get_eq] at hi
      rw [harena]
      exact h.isAt f l c i hi
    · rw [Chart.get_eq, Chart.cellAt_congr hcells, ← Chart.get_eq] at hi
      rw [harena]
      rcases Chart.of_mem_get_push hi with hi | ⟨⟨rfl, rfl, rfl⟩, rfl⟩
      · rw [Arena.get_push_of_lt (h.lt f l c i hi)]
        exact h.isAt f l c i hi
      · rw [Arena.get_push_self]
        exact Derivation.isAt_iff.mpr ⟨rfl, rfl, rfl⟩

theorem InPlace.cut (h : InPlace task p) (first last : Nat) (cat : String) :
    InPlace task (cutCell p first last cat) where
  beam := (Chart.beam_prune p.arena cat).trans h.beam
  distinct := by
    intro f l
    have hnodup := h.distinct.nodup_cats f l
    have hcats : (cutCell p first last cat).chart.cats f l = p.chart.cats f l := cats_cutCell
    rw [← hcats, Chart.cats_eq] at hnodup
    exact hnodup
  lt f l c i hi := by
    rw [size_cutCell]
    exact h.lt f l c i (get_cutCell_subset hi)
  isAt f l c i hi := by
    have hlasting : Derivation.Lasting fun d : Derivation α => d.isAt f l c := fun _ _ _ _ _ _ => rfl
    exact (Chart.read_prune hlasting).trans (h.isAt f l c i (get_cutCell_subset hi))

/-- **Every act leaves things in place.** -/
theorem InPlace.carryOut (h : InPlace task p) (a : Act α) : InPlace task (a.carryOut task p) := by
  cases a with
  | plant d => exact h.adds (adds_carryOut (a := .plant d) fun _ => nofun)
  | add o => exact h.adds (adds_carryOut (a := .add o) fun _ => nofun)
  | cut cell => exact h.cut _ _ _

/-- Whatever is done, what the chart lists stays in range. -/
theorem inRange_carryOut (h : p.InRange) (a : Act α) : (a.carryOut task p).InRange := by
  cases a with
  | plant d => exact (h.featurize task d).addToChart task _
  | add o =>
    exact InRange.addToChart (InRange.featurize (p := (p.make task o.application o.candidate).2) h task _) task _
  | cut cell =>
    refine h.mono size_cutCell.ge ?_
    intro _ _ _ _ hi
    exact hi.of_prune

/-! ## Parts -/

section Parts

variable {first last i : Nat} {trie : Trie} {chart : Chart α} {children : List Nat} {a : Application}

omit [Score α] in
/-- **What covers a span** is made of tokens and of derivations of its parts. -/
theorem parts_of_mem_coverings (hd : chart.Distinct) (hi : first ≤ i)
    (ha : a ∈ coverings task chart first last i trie children) :
    ∀ c ∈ a.children, c ∈ children ∨ ∃ f l cat, IsPart first last f l ∧ c ∈ chart.get f l cat := by
  intro c hc
  rcases (way_of_mem_coverings ha).children_cases hd c hc with hc | ⟨f, l, cat, hf, hlt, hl, hproper, hc⟩
  · exact .inl hc
  · exact .inr ⟨f, l, cat, ⟨hi.trans hf, hlt, hl, hproper⟩, hc⟩

omit [Score α] in
/-- What has one part has a derivation of the whole span. -/
theorem parts_of_mem_wholeSpan (hd : chart.Distinct) (ha : a ∈ wholeSpan task chart first last trie) :
    ∀ c ∈ a.children, ∃ cat, c ∈ chart.get first last cat := by
  obtain ⟨cat, ds, next, d, hentry, hm, -, ha⟩ := exists_of_mem_wholeSpan ha
  obtain ⟨r, -, rfl⟩ := List.mem_map.mp ha
  intro c hc
  refine ⟨cat, ?_⟩
  rw [List.mem_singleton.mp hc, ← ((Chart.mem_entries_iff hd).mp hentry).2]
  exact hm

end Parts

end BottomUp

end Parlance
