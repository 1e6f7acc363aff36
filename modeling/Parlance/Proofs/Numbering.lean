import Mathlib.Order.Monotone.Basic
import Parlance.Proofs.WellMade

/-!
# `Proofs.Numbering` — nothing but the order of the numbers counts

Derivations are numbered when they are made, and of two with the same score the one with the smaller number stands
first. Nothing else looks at these numbers. So a parse whose numbers are others, in the same order, takes the same
steps: at every moment it is the first parse with its derivations renumbered.

This holds of what only reads the arena without any assumption. Sorting compares numbers, and it needs to know that
what it sorts is in the arena, where it was numbered.

## Contents
- **Derivations and arenas.** `Derivation.renumber`, `Arena.renumber`, and what reading, writing and sorting make of it.
- **Cutting.** `prune_renumber`.
- **Outcomes.** `Mirrors`: an outcome is another one under a map.
- **Progress.** `Progress.renumber`, and `InRange`: all that a chart lists is in the arena.
-/

namespace Parlance

variable {α : Type} {f : Nat → Nat}

/-! ## Derivations -/

/-- The derivation with another number. -/
def Derivation.renumber (f : Nat → Nat) (d : Derivation α) : Derivation α := { d with created := f d.created }

/-- Derivations in an order that is kept stand before each other as they did. -/
theorem Derivation.before_renumber [Score α] (hf : StrictMono f) (d e : Derivation α) :
    (d.renumber f).before (e.renumber f) = d.before e := by
  have hcreated : Ord.compare (f d.created) (f e.created) = Ord.compare d.created e.created := by
    rcases Nat.lt_trichotomy d.created e.created with h | h | h
    · rw [Nat.compare_eq_lt.mpr h, Nat.compare_eq_lt.mpr (hf h)]
    · rw [h, Std.ReflOrd.compare_self, Std.ReflOrd.compare_self]
    · rw [Nat.compare_eq_gt.mpr h, Nat.compare_eq_gt.mpr (hf h)]
  show ((Score.order e.sortKey d.sortKey).then (Ord.compare (f d.created) (f e.created)) != .gt) = _
  rw [hcreated]
  rfl

/-! ## Arenas -/

namespace Arena

/-- The arena with other numbers. -/
def renumber (f : Nat → Nat) (arena : Arena α) : Arena α := ⟨arena.items.map (Derivation.renumber f)⟩

@[simp] theorem size_renumber (f : Nat → Nat) (arena : Arena α) : (arena.renumber f).size = arena.size :=
  Array.size_map

/-- A derivation is put after all others, whatever its number is. -/
theorem push_renumber (f : Nat → Nat) (arena : Arena α) (d : Derivation α) :
    (arena.renumber f).push (d.renumber f) = (arena.push d).renumber f := by
  simp [push, renumber]

/-- A change that does not look at numbers can be made before or after renumbering. -/
theorem modify_renumber {g g' : Derivation α → Derivation α} (hg : ∀ d, g' (d.renumber f) = (g d).renumber f)
    (arena : Arena α) (i : Nat) : (arena.renumber f).modify i g' = (arena.modify i g).renumber f := by
  unfold modify renumber
  congr 1
  apply Array.ext_getElem?
  intro k
  simp only [Array.getElem?_modify, Array.getElem?_map]
  split
  · cases arena.items[k]? with
    | none => rfl
    | some d => exact congrArg some (hg d)
  · rfl

variable [Score α]

/-- What is in the arena is found there with another number. -/
theorem get_renumber_of_lt {arena : Arena α} {i : Nat} (hi : i < arena.size) :
    (arena.renumber f).get i = (arena.get i).renumber f := by
  have hget : arena.items[i]? = some arena.items[i] := Array.getElem?_eq_getElem hi
  simp only [get, get?, renumber, Array.getElem?_map, hget, Option.map_some, Option.getD_some]

/-- What is read off a derivation, apart from its number, is the same after renumbering. What is read where there is
none does not matter. -/
theorem read_renumber {β : Type} (g : Derivation α → β) (hg : ∀ d, g (d.renumber f) = g d) (arena : Arena α) (i : Nat) :
    g ((arena.renumber f).get i) = g (arena.get i) := by
  simp only [get, get?, renumber, Array.getElem?_map]
  cases arena.items[i]? with
  | none => rfl
  | some d => exact hg d

@[simp] theorem score_renumber (f : Nat → Nat) (arena : Arena α) (i : Nat) :
    (arena.renumber f).score i = arena.score i := read_renumber Derivation.score (fun _ => rfl) arena i

theorem map_score_renumber (f : Nat → Nat) (arena : Arena α) (l : List Nat) :
    l.map (arena.renumber f).score = l.map arena.score :=
  List.map_congr_left fun i _ => score_renumber f arena i

/-- **Sorting** goes by the order of the numbers only. -/
theorem sort_renumber (hf : StrictMono f) {arena : Arena α} {l : List Nat} (hl : ∀ i ∈ l, i < arena.size) :
    (arena.renumber f).sort l = arena.sort l := by
  have hbefore : ∀ i ∈ l, ∀ j ∈ l,
      ((arena.renumber f).get i).before ((arena.renumber f).get j) = (arena.get i).before (arena.get j) := by
    intro i hi j hj
    rw [get_renumber_of_lt (hl i hi), get_renumber_of_lt (hl j hj), Derivation.before_renumber hf]
  have hsort := List.map_mergeSort (r := fun i j => ((arena.renumber f).get i).before ((arena.renumber f).get j))
    (s := fun i j => (arena.get i).before (arena.get j)) (f := id) (l := l) hbefore
  rwa [List.map_id, List.map_id] at hsort

/-- Trees do not have numbers. -/
theorem unfold_renumber (f : Nat → Nat) (arena : Arena α) : (arena.renumber f).unfold = arena.unfold :=
  unfold_congr (fun i => read_renumber Derivation.label (fun _ => rfl) arena i)
    fun i => read_renumber Derivation.children (fun _ => rfl) arena i

/-- The score of a derivation is made of its features and the scores of its children. -/
theorem scoreLocal_renumber (w : Weights α) (arena : Arena α) (d : Derivation α) :
    (arena.renumber f).scoreLocal w (d.renumber f) = (arena.scoreLocal w d).renumber f := by
  show ({ d.renumber f with
    score := w.dot d.features + Score.sum (d.children.map (arena.renumber f).score) } : Derivation α) = _
  rw [map_score_renumber]
  rfl

end Arena

/-! ## Cutting -/

section Cutting

variable [Score α]

/-- The largest place of a child is read under the new numbers. -/
theorem childPlace_renumber {place : Derivation α → Int} (hplace : ∀ d, place (d.renumber f) = place d)
    (arena : Arena α) (d : Derivation α) :
    childPlace place (arena.renumber f) (d.renumber f) = childPlace place arena d := by
  unfold childPlace
  congr 1
  funext best c
  rw [Arena.read_renumber place hplace]

theorem noteUnsorted_renumber (arena : Arena α) (place i : Nat) :
    noteUnsorted (arena.renumber f) place i = (noteUnsorted arena place i).renumber f := by
  apply Arena.modify_renumber
  intro d
  rw [childPlace_renumber fun _ => rfl]
  rfl

theorem noteSorted_renumber (arena : Arena α) (place i : Nat) :
    noteSorted (arena.renumber f) place i = (noteSorted arena place i).renumber f := by
  apply Arena.modify_renumber
  intro d
  rw [childPlace_renumber fun _ => rfl]
  rfl

/-- Scores are disturbed by what is drawn for them, in the order of the list. -/
theorem disturb_renumber (beam : Beam α) (arena : Arena α) (drawn : Nat) (l : List Nat) :
    disturb beam (arena.renumber f) drawn l = (disturb beam arena drawn l).renumber f := by
  apply List.foldl_hom (Arena.renumber f)
  rintro arena ⟨i, k⟩
  apply Arena.modify_renumber
  intro d
  rfl

/-- **Which derivations stay in a cell** depends on their scores alone. -/
theorem Beam.cut_renumber (beam : Beam α) (arena : Arena α) (l : List Nat) :
    beam.cut (arena.renumber f) l = beam.cut arena l := by
  unfold Beam.cut
  simp only [Arena.score_renumber]

omit [Score α] in
theorem Arena.size_eq_of_shapes {arena arena' : Arena α} (h : arena'.shapes = arena.shapes) :
    arena'.size = arena.size := by
  rw [← Arena.length_shapes, ← Arena.length_shapes, h]

/-- **Cutting a cell** whose derivations are in the arena. -/
theorem Chart.prune_renumber (hf : StrictMono f) {chart : Chart α} {arena : Arena α} {first last : Nat} {cat : String}
    (hl : ∀ i ∈ chart.get first last cat, i < arena.size) :
    chart.prune (arena.renumber f) first last cat =
      ((chart.prune arena first last cat).1, (chart.prune arena first last cat).2.renumber f) := by
  unfold Chart.prune
  dsimp only
  split
  case isTrue => rfl
  case isFalse =>
    have hplaces : notePlaces noteUnsorted (arena.renumber f) (chart.get first last cat) =
        (notePlaces noteUnsorted arena (chart.get first last cat)).renumber f :=
      List.foldl_hom (Arena.renumber f) fun arena pair => noteUnsorted_renumber arena pair.2 pair.1
    have hsize : (notePlaces noteUnsorted arena (chart.get first last cat)).size = arena.size :=
      Arena.size_eq_of_shapes (Arena.shapes_notePlaces Arena.shapes_noteUnsorted _ _)
    rw [hplaces]
    generalize notePlaces noteUnsorted arena (chart.get first last cat) = noted at hsize
    -- the scores are disturbed in both arenas alike, or in neither
    have hnoise : (if Score.lt Score.zero chart.beam.noise = true then
          disturb chart.beam (noted.renumber f) chart.drawn (chart.get first last cat) else noted.renumber f) =
        (if Score.lt Score.zero chart.beam.noise = true then
          disturb chart.beam noted chart.drawn (chart.get first last cat) else noted).renumber f := by
      split
      · exact disturb_renumber _ _ _ _
      · rfl
    have hsize' : (if Score.lt Score.zero chart.beam.noise = true then
        disturb chart.beam noted chart.drawn (chart.get first last cat) else noted).size = arena.size := by
      split
      · exact (Arena.size_eq_of_shapes (Arena.shapes_disturb _ _ _ _)).trans hsize
      · exact hsize
    rw [hnoise]
    generalize (if Score.lt Score.zero chart.beam.noise = true then
      disturb chart.beam noted chart.drawn (chart.get first last cat) else noted) = disturbed at hsize'
    rw [Arena.sort_renumber hf fun i hi => hsize' ▸ hl i hi]
    have hsorted : notePlaces noteSorted (disturbed.renumber f) (disturbed.sort (chart.get first last cat)) =
        (notePlaces noteSorted disturbed (disturbed.sort (chart.get first last cat))).renumber f :=
      List.foldl_hom (Arena.renumber f) fun arena pair => noteSorted_renumber arena pair.2 pair.1
    rw [hsorted, Beam.cut_renumber]

end Cutting

/-! ## Outcomes -/

/-- **An outcome under a map**: the second outcome is the first one with what it comes to mapped, and that satisfies
`P`. -/
structure Mirrors {ε β γ : Type} (g : β → γ) (P : β → Prop) (x : Except ε β) (y : Except ε γ) : Prop where
  eq : y = x.map g
  holds : ∀ b, x = .ok b → P b

namespace Mirrors

variable {ε β γ β' γ' : Type} {g : β → γ} {g' : β' → γ'} {P : β → Prop} {Q : β' → Prop}

theorem ok {b : β} (h : P b) : Mirrors g P (.ok b : Except ε β) (.ok (g b)) :=
  ⟨rfl, fun _ hb => Except.ok.inj hb ▸ h⟩

theorem error (e : ε) : Mirrors g P (.error e) (.error e) := ⟨rfl, fun _ h => by cases h⟩

/-- Steps that agree, one after the other. -/
theorem bind {x : Except ε β} {y : Except ε γ} {k : β → Except ε β'} {k' : γ → Except ε γ'} (h : Mirrors g P x y)
    (hk : ∀ b, P b → Mirrors g' Q (k b) (k' (g b))) : Mirrors g' Q (x >>= k) (y >>= k') := by
  obtain ⟨rfl, hP⟩ := h
  cases x with
  | error e => exact .error e
  | ok b => exact hk b (hP b rfl)

/-- A fold whose steps mirror each other. -/
theorem foldlM {σ : Type} {step : β → σ → Except ε β} {step' : γ → σ → Except ε γ}
    (hstep : ∀ b s, P b → Mirrors g P (step b s) (step' (g b) s)) (l : List σ) {b : β} (h : P b) :
    Mirrors g P (l.foldlM step b) (l.foldlM step' (g b)) := by
  induction l generalizing b with
  | nil => exact .ok h
  | cons s rest ih =>
    rw [List.foldlM_cons, List.foldlM_cons]
    exact (hstep b s h).bind fun b' hb' => ih hb'

end Mirrors

/-! ## Progress -/

/-- The task with other numbers in supply. -/
def Task.renumber (f : Nat → Nat) (task : Task α) : Task α := { task with supply := fun i => f (task.supply i) }

namespace Progress

/-- The progress with other numbers on its derivations. -/
def renumber (f : Nat → Nat) (p : Progress α) : Progress α := { p with arena := p.arena.renumber f }

/-- **All that the chart lists is in the arena.** -/
def InRange (p : Progress α) : Prop := ∀ first last cat i, p.chart.Lists first last cat i → i < p.arena.size

/-- Nothing new in the chart, and nothing gone from the arena. -/
theorem InRange.mono {p q : Progress α} (h : p.InRange) (hsize : p.arena.size ≤ q.arena.size)
    (hchart : ∀ first last cat i, q.chart.Lists first last cat i → p.chart.Lists first last cat i) : q.InRange :=
  fun first last cat i hi => lt_of_lt_of_le (h first last cat i (hchart first last cat i hi)) hsize

theorem InRange.get {p : Progress α} (h : p.InRange) {first last : Nat} {cat : String} :
    ∀ i ∈ p.chart.get first last cat, i < p.arena.size :=
  fun i hi => h first last cat i (Chart.lists_of_mem_get hi)

theorem InRange.insert {p : Progress α} (h : p.InRange) (d : Derivation α) : (p.insert d).InRange := by
  intro first last cat i hi
  have hsize : (p.insert d).arena.size = p.arena.size + 1 := Arena.size_push p.arena d
  rw [hsize]
  rcases Chart.Lists.of_push hi with hi | ⟨-, rfl⟩
  · exact Nat.lt_succ_of_lt (h first last cat i hi)
  · exact Nat.lt_succ_self _

theorem insert_renumber (p : Progress α) (d : Derivation α) :
    (p.renumber f).insert (d.renumber f) = (p.insert d).renumber f := by
  show ({ p with
    arena := (p.arena.renumber f).push (d.renumber f)
    chart := p.chart.push d.first d.last d.cat (p.arena.renumber f).size } : Progress α) = _
  rw [Arena.push_renumber, Arena.size_renumber]
  rfl

theorem InRange.addToChart {p : Progress α} (h : p.InRange) (task : Task α) (d : Derivation α) :
    (p.addToChart task d).InRange := by
  unfold Progress.addToChart
  split
  · exact h
  · exact InRange.insert (p := p.count) h d

/-- **A derivation is added** to the same cell, at the same place. -/
theorem addToChart_renumber (task : Task α) (p : Progress α) (d : Derivation α) :
    (p.renumber f).addToChart (task.renumber f) (d.renumber f) = (p.addToChart task d).renumber f := by
  unfold Progress.addToChart
  show (if task.pruneErrors && d.hasErrorValue then p.renumber f else (p.count.renumber f).insert (d.renumber f)) = _
  split
  · rfl
  · exact insert_renumber _ _

variable [Score α]

theorem call_renumber (p : Progress α) (a : Application) : (p.renumber f).call a = p.call a := by
  unfold call
  congr 1
  exact List.map_congr_left fun c _ => Arena.read_renumber Derivation.toChild (fun _ => rfl) p.arena c

/-- **What a rule makes of children** does not depend on their numbers. -/
theorem results_renumber (p : Progress α) (task : Task α) (a : Application) :
    (p.renumber f).results (task.renumber f) a = p.results task a := by
  unfold results
  rw [call_renumber]
  rfl

/-- What an error says of a rule and its children shows no numbers. -/
theorem failure_renumber (p : Progress α) (a : Application) (cause : SemanticError) :
    (p.renumber f).failure a cause = p.failure a cause := by
  unfold failure
  rw [call_renumber]

/-- The derivation that is made of a candidate has the next number, renumbered. -/
theorem make_renumber (p : Progress α) (task : Task α) (a : Application) (candidate : Candidate) :
    (p.renumber f).make (task.renumber f) a candidate =
      ((p.make task a candidate).1.renumber f, (p.make task a candidate).2.renumber f) := by
  unfold make
  rw [call_renumber]
  rfl

/-- The features are extracted from a tree that shows no numbers. -/
theorem featurize_renumber (p : Progress α) (task : Task α) (d : Derivation α) :
    (p.renumber f).featurize (task.renumber f) (d.renumber f) =
      ((p.featurize task d).1.renumber f, (p.featurize task d).2.renumber f) := by
  have hextract : (p.renumber f).extract (task.renumber f) (d.renumber f) = (p.extract task d).renumber f := by
    unfold extract
    show { d.renumber f with
      features := task.extractor.extract task.ex ((d.renumber f).unfold (p.arena.renumber f)) } = _
    unfold Derivation.unfold
    rw [Arena.unfold_renumber]
    rfl
  unfold featurize
  show (if d.isScored = true then _ else _) = _
  split
  · rfl
  · rw [hextract]
    exact Prod.ext (Arena.scoreLocal_renumber _ _ _) rfl

theorem InRange.featurize {p : Progress α} (h : p.InRange) (task : Task α) (d : Derivation α) :
    (p.featurize task d).2.InRange := by
  unfold Progress.featurize
  split
  · exact h
  · exact h

end Progress

end Parlance
