import Parlance.Proofs.BeamParse
import Parlance.Proofs.Effects

/-!
# `Proofs.Cutting` — cells are cut once, and are final from then on

A bottom-up parse cuts a cell when the cell is complete. This is so because shorter spans come first, and because
over one span the rules from one category to one category are in order: the rules that make a category stand before
those that take it, whichever of them are left out. Hence no act works on a cell that was cut, and whatever an act
builds on is in a cell that was. What a cut leaves is then left alone for good, and its order with it.

## Contents
- **Acts in time.** `Timely`.
- **Spans.** `Underway`: which cells were cut while a span is worked on. Kept by every part of a parse.
- **Texts.** `along_acts`: all acts of a parse come in time, and in the end every cell was cut.
- **Final cells.** `Lies`, what belongs to a cell; nothing is written to that once the cell is cut. `Final`, what a
  whole parse has done.
- **Parses.** `Parser.final_infer`.
-/

namespace Parlance

open Progress

variable {α : Type} [Score α]

namespace BottomUp

variable {task : Task α} {rules unaries : List Rule} {p q : Progress α} {a : Act α} {done log : List (Act α)}
  {behind : List (Nat × Nat)} {pruned : List String} {first last f l i : Nat} {c cat : String}

/-! ## Acts in time -/

/-- Whether a derivation is in a cell that was cut. -/
def Stands (done : List (Act α)) (p : Progress α) (i : Nat) : Prop :=
  ∃ f l c, .cut (f, l, c) ∈ done ∧ i ∈ p.chart.get f l c

/-- **An act comes in time**: its cell was not cut before, and what it builds on is in cells that were. -/
structure Timely (done : List (Act α)) (p : Progress α) (a : Act α) : Prop where
  fresh : .cut a.cell ∉ done
  children : ∀ i ∈ a.children, Stands done p i

/-- An act leaves all cells alone but its own. -/
theorem get_carryOut_of_ne (h : (f, l, c) ≠ a.cell) : (a.carryOut task p).chart.get f l c = p.chart.get f l c := by
  by_cases hcut : ∃ cell, a = .cut cell
  case pos =>
    obtain ⟨cell, rfl⟩ := hcut
    exact get_cutCell_of_ne h
  case neg =>
    have hcut : ∀ cell, a ≠ .cut cell := fun cell he => hcut ⟨cell, he⟩
    exact (adds_carryOut hcut).get_of_ne fun he => h (he.trans (cell_rated hcut))

theorem Stands.carryOut (h : Stands done p i) (ha : .cut a.cell ∉ done) :
    Stands (done ++ [a]) (a.carryOut task p) i := by
  obtain ⟨f, l, c, hcut, hi⟩ := h
  have hne : (f, l, c) ≠ a.cell := fun he => ha (he ▸ hcut)
  refine ⟨f, l, c, List.mem_append_left _ hcut, ?_⟩
  rw [get_carryOut_of_ne hne]
  exact hi

/-! ## Spans -/

/-- **Which cells were cut while a span is worked on**: those of the spans behind, and some of those of the span. -/
structure Underway (task : Task α) (behind : List (Nat × Nat)) (first last : Nat) (done : List (Act α))
    (p : Progress α) (pruned : List String) : Prop where
  inPlace : InPlace task p
  cats : ∀ f l, ∀ c ∈ p.chart.cats f l, (f, l) ∈ spansByLength task.length ∧ isCat c = true
  cut : ∀ f l c, .cut (f, l, c) ∈ done → (f, l) ∈ behind ∨ f = first ∧ l = last ∧ c ∈ pruned
  behind : ∀ f l, (f, l) ∈ behind → ∀ c ∈ p.chart.cats f l, .cut (f, l, c) ∈ done
  here : ∀ c ∈ pruned, .cut (first, last, c) ∈ done

namespace Underway

/-- Turning to another span. -/
theorem enter (h : Underway task behind first last done p []) (f l : Nat) : Underway task behind f l done p [] where
  inPlace := h.inPlace
  cats := h.cats
  cut f' l' c hcut := by
    rcases h.cut f' l' c hcut with hbehind | ⟨-, -, hc⟩
    · exact .inl hbehind
    · cases hc
  behind := h.behind
  here c hc := nomatch hc

theorem fresh (h : Underway task behind first last done p pruned) (hbehind : (first, last) ∉ behind)
    (hc : c ∉ pruned) : .cut (first, last, c) ∉ done := by
  intro hcut
  rcases h.cut first last c hcut with hmem | ⟨-, -, hmem⟩
  · exact hbehind hmem
  · exact hc hmem

/-- Putting something into a cell of the span. -/
theorem put (h : Underway task behind first last done p pruned) (hspan : (first, last) ∈ spansByLength task.length)
    (hbehind : (first, last) ∉ behind) (hcut : ∀ cell, a ≠ .cut cell) (hcell : a.cell = (first, last, cat))
    (hcat : isCat cat = true) : Underway task behind first last (done ++ [a]) (a.carryOut task p) pruned := by
  have hcats : ∀ f l, ∀ c ∈ (a.carryOut task p).chart.cats f l,
      c ∈ p.chart.cats f l ∨ (f, l, c) = (first, last, cat) := by
    intro f l c hc
    rcases (adds_carryOut hcut).of_mem_cats hc with hc | he
    · exact .inl hc
    · exact .inr ((he.trans (cell_rated hcut)).trans hcell)
  refine ⟨h.inPlace.carryOut a, fun f l c hc => ?_, fun f l c hmem => ?_, fun f l hm c hc => ?_, fun c hc => ?_⟩
  · rcases hcats f l c hc with hc | he
    · exact h.cats f l c hc
    · obtain ⟨rfl, rfl, rfl⟩ := he
      exact ⟨hspan, hcat⟩
  · rcases List.mem_append.mp hmem with hmem | hmem
    · exact h.cut f l c hmem
    · exact absurd (List.mem_singleton.mp hmem).symm (hcut _)
  · rcases hcats f l c hc with hc | he
    · exact List.mem_append_left _ (h.behind f l hm c hc)
    · obtain ⟨rfl, rfl, rfl⟩ := he
      exact absurd hm hbehind
  · exact List.mem_append_left _ (h.here c hc)

/-- Cutting a cell of the span. -/
theorem prune (h : Underway task behind first last done p pruned) (cat : String) :
    Underway task behind first last (done ++ [.cut (first, last, cat)]) (cutCell p first last cat) (cat :: pruned) where
  inPlace := h.inPlace.cut first last cat
  cats f l c hc := by
    rw [cats_cutCell] at hc
    exact h.cats f l c hc
  cut f l c hmem := by
    rcases List.mem_append.mp hmem with hmem | hmem
    · rcases h.cut f l c hmem with hbehind | ⟨hf, hl, hc⟩
      · exact .inl hbehind
      · exact .inr ⟨hf, hl, List.mem_cons_of_mem _ hc⟩
    · obtain ⟨rfl, rfl, rfl⟩ := Act.cut.inj (List.mem_singleton.mp hmem)
      exact .inr ⟨rfl, rfl, List.mem_cons_self⟩
  behind f l hm c hc := by
    rw [cats_cutCell] at hc
    exact List.mem_append_left _ (h.behind f l hm c hc)
  here c hc := by
    rcases List.mem_cons.mp hc with rfl | hc
    · exact List.mem_append_right _ (List.mem_singleton_self _)
    · exact List.mem_append_left _ (h.here c hc)

/-- A span is behind when the cells of all its categories were cut. -/
theorem leave (h : Underway task behind first last done p pruned) (hall : ∀ c ∈ p.chart.cats first last, c ∈ pruned) :
    Underway task (behind ++ [(first, last)]) first last done p [] where
  inPlace := h.inPlace
  cats := h.cats
  cut f l c hcut := by
    rcases h.cut f l c hcut with hbehind | ⟨rfl, rfl, -⟩
    · exact .inl (List.mem_append_left _ hbehind)
    · exact .inl (List.mem_append_right _ (List.mem_singleton_self _))
  behind f l hm c hc := by
    rcases List.mem_append.mp hm with hm | hm
    · exact h.behind f l hm c hc
    · obtain ⟨rfl, rfl⟩ := Prod.mk.inj (List.mem_singleton.mp hm)
      exact h.here c (hall c hc)
  here c hc := nomatch hc

end Underway

/-- **Some of the rules from one category to one category were taken**: what is cut is what they take. -/
structure Passing (task : Task α) (behind : List (Nat × Nat)) (first last : Nat) (taken : List Rule)
    (done : List (Act α)) (state : Progress α × List String) : Prop where
  underway : Underway task behind first last done state.1 state.2
  pruned : ∀ c ∈ state.2, ∃ r ∈ taken, c = r.target

section Span

variable (hspan : (first, last) ∈ spansByLength task.length) (hbehind : (first, last) ∉ behind)
include hspan hbehind

/-- **Applying rules whose cells are open to what is in cells that were cut.** -/
theorem along_applyAllActs {apps : List Application} (h : Underway task behind first last done p pruned)
    (happs : ∀ a ∈ apps, a.first = first ∧ a.last = last ∧ isCat a.rule.lhs = true ∧ a.rule.lhs ∉ pruned)
    (hchildren : ∀ a ∈ apps, ∀ c ∈ a.children, Stands done p c) :
    Along task Timely done p (applyAllActs task p apps) ∧
      Underway task behind first last (done ++ applyAllActs task p apps) (after task p (applyAllActs task p apps))
        pruned := by
  suffices hboth : Along task Timely done p (applyAllActs task p apps) ∧
      Underway task behind first last (done ++ applyAllActs task p apps) (after task p (applyAllActs task p apps))
        pruned ∧
      ∀ a ∈ apps, ∀ c ∈ a.children,
        Stands (done ++ applyAllActs task p apps) (after task p (applyAllActs task p apps)) c from
    ⟨hboth.1, hboth.2.1⟩
  refine along_of (R := fun done p => Underway task behind first last done p pruned ∧
    ∀ a ∈ apps, ∀ c ∈ a.children, Stands done p c) ⟨h, hchildren⟩ ?_
  rintro act hact done p ⟨h, hchildren⟩
  obtain ⟨a, ha, candidate, rfl⟩ := exists_of_mem_applyAllActs hact
  obtain ⟨hfirst, hlast, hcat, hlhs⟩ := happs a ha
  have hcell : (Act.add ⟨a, candidate⟩ : Act α).cell = (first, last, a.rule.lhs) := by
    rw [← hfirst, ← hlast]
    rfl
  have hfresh : .cut (Act.add ⟨a, candidate⟩ : Act α).cell ∉ done := hcell ▸ h.fresh hbehind hlhs
  refine ⟨⟨hfresh, hchildren a ha⟩, h.put hspan hbehind (fun _ => nofun) hcell hcat, ?_⟩
  exact fun b hb c hc => (hchildren b hb c hc).carryOut hfresh

omit hspan in
/-- Cutting a cell of the span, unless that was done. -/
theorem along_pruneActs (h : Underway task behind first last done p pruned) (cat : String) :
    Along task Timely done p (pruneActs first last pruned cat) ∧
      Underway task behind first last (done ++ pruneActs first last pruned cat)
        (pruneOnce first last (p, pruned) cat).1 (pruneOnce first last (p, pruned) cat).2 := by
  unfold pruneActs
  by_cases hcat : cat ∈ pruned
  case pos =>
    rw [if_pos hcat, pruneOnce_of_mem hcat, List.append_nil]
    exact ⟨trivial, h⟩
  case neg =>
    rw [if_neg hcat, pruneOnce_of_not_mem hcat]
    exact ⟨⟨⟨h.fresh hbehind hcat, fun c hc => nomatch hc⟩, trivial⟩, h.prune cat⟩

/-- **A rule from one category to one category**, whose own cell is open. -/
theorem along_unaryActs {rule : Rule} (h : Underway task behind first last done p pruned)
    (hcat : isCat rule.lhs = true) (hopen : rule.lhs ∉ pruned) (hne : rule.lhs ≠ rule.target) :
    Along task Timely done p (unaryActs task first last (p, pruned) rule) ∧
      ∀ state, applyUnary task first last (p, pruned) rule = .ok state →
        Underway task behind first last (done ++ unaryActs task first last (p, pruned) rule) state.1 state.2 ∧
          ∀ c ∈ state.2, c = rule.target ∨ c ∈ pruned := by
  unfold unaryActs
  split
  case isTrue hbuild =>
    refine ⟨trivial, fun state hstate => ?_⟩
    rw [applyUnary_eq_ok_iff, if_neg (by simpa using hbuild)] at hstate
    obtain rfl := hstate
    rw [List.append_nil]
    exact ⟨h, fun c hc => .inr hc⟩
  case isFalse hbuild =>
    obtain ⟨hprune, hafter⟩ := along_pruneActs hbehind h rule.target
    have hpruned : ∀ c, c ∈ (pruneOnce first last (p, pruned) rule.target).2 ↔ c = rule.target ∨ c ∈ pruned :=
      fun c => mem_pruned_pruneOnce
    have happs : ∀ a ∈ ((pruneOnce first last (p, pruned) rule.target).1.chart.get first last rule.target).map
        fun d => ({ rule, first, last, children := [d] } : Application),
        a.first = first ∧ a.last = last ∧ isCat a.rule.lhs = true ∧
          a.rule.lhs ∉ (pruneOnce first last (p, pruned) rule.target).2 := by
      intro a ha
      obtain ⟨d, -, rfl⟩ := List.mem_map.mp ha
      refine ⟨rfl, rfl, hcat, fun hmem => ?_⟩
      rcases (hpruned _).mp hmem with he | hmem
      · exact hne he
      · exact hopen hmem
    obtain ⟨happly, hlast⟩ := along_applyAllActs hspan hbehind hafter happs (by
      intro a ha c hc
      obtain ⟨d, hd, rfl⟩ := List.mem_map.mp ha
      rw [List.mem_singleton.mp hc]
      exact ⟨first, last, rule.target, hafter.here _ ((hpruned _).mpr (.inl rfl)), hd⟩)
    rw [along_append, Rule.target, after_pruneActs]
    refine ⟨⟨hprune, happly⟩, fun state hstate => ?_⟩
    rw [applyUnary_eq_ok_iff, if_pos (by simpa using hbuild)] at hstate
    obtain ⟨hq, hstate⟩ := hstate
    rw [after_applyAllActs hq, List.append_assoc] at hlast
    rw [hstate]
    exact ⟨hlast, fun c hc => (hpruned c).mp hc⟩

omit hspan in
/-- Cutting the cells of several categories. -/
theorem along_cutActs (cats : List String) {state : Progress α × List String}
    (h : Underway task behind first last done state.1 state.2) :
    Along task Timely done state.1 (cutActs first last cats state) ∧
      Underway task behind first last (done ++ cutActs first last cats state)
        (cats.foldl (pruneOnce first last) state).1 (cats.foldl (pruneOnce first last) state).2 := by
  induction cats generalizing done state with
  | nil =>
    rw [cutActs, List.append_nil]
    exact ⟨trivial, h⟩
  | cons cat rest ih =>
    obtain ⟨p, pruned⟩ := state
    obtain ⟨hprune, hafter⟩ := along_pruneActs hbehind h cat
    obtain ⟨hrest, hlast⟩ := ih hafter
    rw [cutActs, along_append, after_pruneActs, ← List.append_assoc]
    exact ⟨⟨hprune, hrest⟩, hlast⟩

/-- Taking the next one of the rules from one category to one category. -/
theorem Passing.next (hready : Ready rules unaries) {taken rest : List Rule} {rule : Rule}
    (hunaries : unaries = taken ++ rule :: rest) {state : Progress α × List String}
    (h : Passing task behind first last taken done state) :
    Along task Timely done state.1 (unaryActs task first last state rule) ∧
      ∀ t, applyUnary task first last state rule = .ok t →
        Passing task behind first last (taken ++ [rule]) (done ++ unaryActs task first last state rule) t := by
  obtain ⟨p, pruned⟩ := state
  have hmem : rule ∈ unaries := by simp [hunaries]
  have horder := UnaryOrder.pairwise_sort hready.sorted
  rw [hunaries] at horder
  have hopen : rule.lhs ∉ pruned := by
    intro hpruned
    obtain ⟨r, hr, he⟩ := h.pruned _ hpruned
    exact (List.pairwise_append.mp horder).2.2 r hr rule List.mem_cons_self he
  have hcat := hready.cats rule ((UnaryOrder.mem_sort hready.sorted).mp hmem).1
  have hne := UnaryOrder.lhs_ne_target_of_sort hready.sorted hmem
  obtain ⟨hrule, hafter⟩ := along_unaryActs hspan hbehind h.underway hcat hopen hne
  refine ⟨hrule, fun t ht => ?_⟩
  obtain ⟨ht, hpruned⟩ := hafter t ht
  refine ⟨ht, fun c hc => ?_⟩
  rcases hpruned c hc with he | hc
  · exact ⟨rule, List.mem_append_right _ (List.mem_singleton_self _), he⟩
  · obtain ⟨r, hr, he⟩ := h.pruned c hc
    exact ⟨r, List.mem_append_left _ hr, he⟩

/-- **The rules from one category to one category**: each category is cut before a rule takes it, and no rule behind
makes it. -/
theorem along_unaries (hready : Ready rules unaries) (h : Underway task behind first last done p []) :
    Along task Timely done p (foldActs (applyUnary task first last) (unaryActs task first last) unaries (p, [])) ∧
      ∀ state, unaries.foldlM (applyUnary task first last) (p, []) = .ok state →
        Underway task behind first last
          (done ++ foldActs (applyUnary task first last) (unaryActs task first last) unaries (p, [])) state.1
          state.2 := by
  have hstart : Passing task behind first last [] done (p, []) := ⟨h, fun c hc => nomatch hc⟩
  obtain ⟨halong, hend⟩ := along_foldActs (v := Prod.fst) hstart (fun _ _ _ => after_unaryActs)
    fun _ _ _ _ _ hunaries hpassing => Passing.next hspan hbehind hready hunaries hpassing
  exact ⟨halong, fun state hstate => (hend state hstate).underway⟩

end Span

/-- The rules that cover a span by its parts take what is in cells that were cut. -/
theorem Underway.of_mem_coverings (hready : Ready rules unaries) {ahead : List (Nat × Nat)}
    (hspans : spansByLength task.length = behind ++ (first, last) :: ahead)
    (h : Underway task behind first last done p pruned) {app : Application}
    (happ : app ∈ coverings task p.chart first last first (trieOf rules) []) :
    (app.first = first ∧ app.last = last ∧ isCat app.rule.lhs = true) ∧ ∀ c ∈ app.children, Stands done p c := by
  have hfrom := fromChart_coverings h.inPlace.distinct happ
  refine ⟨⟨hfrom.first, hfrom.last, hready.cats app.rule hfrom.rule⟩, fun c hc => ?_⟩
  rcases parts_of_mem_coverings h.inPlace.distinct (Nat.le_refl first) happ c hc with hc | ⟨f, l, cat, hpart, hc⟩
  · cases hc
  · exact ⟨f, l, cat, h.behind f l (mem_of_isPart hspans hpart).1 cat (Chart.mem_cats_of_mem_get hc), hc⟩

/-- The rules that take one part are not in the trie. -/
theorem Underway.wholeSpan_eq_nil (h : Underway task behind first last done p pruned) :
    wholeSpan task p.chart first last (trieOf rules) = [] :=
  BottomUp.wholeSpan_eq_nil (filed_trieOf rules) (fun r hr => by simpa using (List.mem_filter.mp hr).2)
    fun c hc => (h.cats first last c hc).2

/-- **Building a span**: its parts are behind, its cells are open, and in the end all of them are cut. -/
theorem along_spanActs (hready : Ready rules unaries) {ahead : List (Nat × Nat)}
    (hspans : spansByLength task.length = behind ++ (first, last) :: ahead)
    (h : Underway task behind first last done p []) :
    Along task Timely done p (spanActs task (trieOf rules) unaries p (first, last)) ∧
      ∀ q, buildSpan task (trieOf rules) unaries p (first, last) = .ok q →
        Underway task (behind ++ [(first, last)]) first last
          (done ++ spanActs task (trieOf rules) unaries p (first, last)) q [] := by
  have hspan : (first, last) ∈ spansByLength task.length := by simp [hspans]
  have hbehind : (first, last) ∉ behind :=
    fun hm => not_within_of_mem hspans hm ⟨Nat.le_refl first, Nat.le_refl last⟩
  obtain ⟨hparts, hafter⟩ := along_applyAllActs hspan hbehind h
    (fun a ha => by
      obtain ⟨⟨hfirst, hlast, hcat⟩, -⟩ := h.of_mem_coverings hready hspans ha
      exact ⟨hfirst, hlast, hcat, List.not_mem_nil⟩)
    fun a ha => (h.of_mem_coverings hready hspans ha).2
  have hunderway : ∀ p₁, applyAll task p (coverings task p.chart first last first (trieOf rules) []) = .ok p₁ →
      Underway task behind first last
        (done ++ applyAllActs task p (coverings task p.chart first last first (trieOf rules) [])) p₁ [] :=
    fun p₁ h₁ => by rwa [after_applyAllActs h₁] at hafter
  constructor
  · unfold spanActs
    refine along_andThen (v := id) (fun _ => after_applyAllActs) hparts fun p₁ h₁ => ?_
    obtain ⟨hunary, hafter⟩ := along_unaries hspan hbehind hready (hunderway p₁ h₁)
    dsimp only
    rw [(hunderway p₁ h₁).wholeSpan_eq_nil]
    show Along task Timely _ p₁
      (foldActs (applyUnary task first last) (unaryActs task first last) unaries (p₁, []) ++ andThen _ _)
    exact along_andThen (v := Prod.fst) (fun _ => after_unaries) hunary
      fun state h₂ => (along_cutActs hbehind _ (hafter state h₂)).1
  · intro q hq
    obtain ⟨p₁, p₂, state, h₁, h₂, h₃, rfl⟩ := buildSpan_steps_iff.mp hq
    rw [spanActs_eq h₁ h₂ h₃]
    rw [(hunderway p₁ h₁).wholeSpan_eq_nil] at h₂ ⊢
    obtain rfl := Except.ok.inj h₂
    obtain ⟨-, hafter⟩ := along_unaries hspan hbehind hready (hunderway p₁ h₁)
    obtain ⟨-, hlast⟩ := along_cutActs hbehind (state.1.chart.cats first last) (hafter state h₃)
    obtain ⟨hdone, hcats⟩ := foldl_pruneOnce_spec first last (state.1.chart.cats first last) state
    rw [List.append_assoc, List.append_assoc] at hlast
    exact hlast.leave fun c hc => hdone c (.inr (hcats first last ▸ hc))

/-! ## Texts -/

/-- **All acts of a parse come in time**, and if it gets to its end, every cell was cut by then. -/
theorem along_acts (hready : Ready rules unaries) :
    Along task Timely [] (startWithTerminals task) (acts task (trieOf rules) unaries) ∧
      ∀ q, run task (trieOf rules) unaries = .ok q →
        ∀ f l, ∀ c ∈ q.chart.cats f l, .cut (f, l, c) ∈ acts task (trieOf rules) unaries := by
  have hstart : ∀ first last, Underway task [] first last [] (startWithTerminals task) [] := by
    intro first last
    refine ⟨inPlace_start task, ?_, ?_, ?_, ?_⟩
    · intro f l c hc
      rw [Chart.cats_eq, show (startWithTerminals task).chart.cellAt f l = .empty from Chart.cellAt_new _ _ f l] at hc
      cases hc
    · exact fun f l c hc => nomatch hc
    · exact fun f l hm => nomatch hm
    · exact fun c hc => nomatch hc
  have hplant : ∀ a ∈ (terminalDerivations task).map (Act.plant (α := α)), ∀ done p,
      (∀ first last, Underway task [] first last done p []) →
        Timely done p a ∧ ∀ first last, Underway task [] first last (done ++ [a]) (a.carryOut task p) [] := by
    intro a ha done p h
    obtain ⟨d, hd, rfl⟩ := List.mem_map.mp ha
    obtain ⟨t, ht, n, rfl⟩ := exists_terminal hd
    obtain ⟨hfirst, hlast, hcat⟩ := mem_terminals ht
    have hspan : (t.first, t.last) ∈ spansByLength task.length := mem_spansByLength.mpr ⟨hfirst, hlast⟩
    have hplanted := (h t.first t.last).put hspan List.not_mem_nil
      (a := .plant (.terminal t.cat t.first t.last t.text t.canonical n)) (fun _ => nofun) rfl
      (isCat_of_mem_builtinCats t.cat hcat)
    refine ⟨⟨(h t.first t.last).fresh List.not_mem_nil List.not_mem_nil, fun i hi => nomatch hi⟩, fun first last => ?_⟩
    exact hplanted.enter first last
  obtain ⟨hseed, hseeded⟩ := along_of hstart hplant
  have hspan : ∀ behind span ahead done p, spansByLength task.length = behind ++ span :: ahead →
      (∀ first last, Underway task behind first last done p []) →
        Along task Timely done p (spanActs task (trieOf rules) unaries p span) ∧
          ∀ q, buildSpan task (trieOf rules) unaries p span = .ok q → ∀ first last,
            Underway task (behind ++ [span]) first last (done ++ spanActs task (trieOf rules) unaries p span) q [] := by
    rintro behind ⟨first, last⟩ ahead done p hspans h
    obtain ⟨hacts, hbuilt⟩ := along_spanActs hready hspans (h first last)
    exact ⟨hacts, fun q hq => (hbuilt q hq).enter⟩
  obtain ⟨hspans, hend⟩ := along_foldActs (v := id)
    (R := fun behind done p => ∀ first last, Underway task behind first last done p []) hseeded
    (fun _ _ _ => after_spanActs) hspan
  unfold acts
  rw [along_append]
  have hafter : after task (startWithTerminals task) ((terminalDerivations task).map .plant) = seed task :=
    after_map_plant task _ _
  rw [hafter] at hspans hend ⊢
  refine ⟨⟨hseed, hspans⟩, fun q hq f l c hc => ?_⟩
  have hlast := hend q hq f l
  exact hlast.behind f l (hlast.cats f l c hc).1 c hc

/-! ## Final cells -/

omit [Score α] in
/-- A derivation belongs to one cell. -/
theorem cell_eq_of_isAt {d : Derivation α} {f' l' : Nat} {c' : String} (h : d.isAt f l c = true)
    (h' : d.isAt f' l' c' = true) : (f, l, c) = (f', l', c') := by
  obtain ⟨rfl, rfl, rfl⟩ := Derivation.isAt_iff.mp h
  obtain ⟨rfl, rfl, rfl⟩ := Derivation.isAt_iff.mp h'
  rfl

/-- Whether a derivation belongs to a cell. -/
def Lies (p : Progress α) (f l : Nat) (c : String) (i : Nat) : Prop :=
  i < p.arena.size ∧ (p.arena.get i).isAt f l c = true

/-- Cutting moves no derivation to another cell. -/
theorem lies_cutCell_iff : Lies (cutCell p first last cat) f l c i ↔ Lies p f l c i := by
  have hlasting : Derivation.Lasting fun d : Derivation α => d.isAt f l c := fun _ _ _ _ _ _ => rfl
  have hat : ((cutCell p first last cat).arena.get i).isAt f l c = (p.arena.get i).isAt f l c :=
    Chart.read_prune hlasting
  unfold Lies
  rw [size_cutCell, hat]

/-- What is put in goes to its own cell. -/
theorem Adds.lies_iff {d : Derivation α} (hq : Adds p d q) (hne : (f, l, c) ≠ (d.first, d.last, d.cat)) :
    Lies q f l c i ↔ Lies p f l c i := by
  refine ⟨fun ⟨hi, hat⟩ => ?_, fun ⟨hi, hat⟩ => ⟨Nat.lt_of_lt_of_le hi hq.size_le, hq.arena_get hi ▸ hat⟩⟩
  by_cases hlt : i < p.arena.size
  case pos => exact ⟨hlt, hq.arena_get hlt ▸ hat⟩
  case neg =>
    rcases hq.effect with ⟨harena, -⟩ | ⟨harena, -⟩
    · exact absurd (harena ▸ hi) hlt
    · rw [harena] at hi hat
      rw [Arena.size_push] at hi
      obtain rfl : i = p.arena.size := by omega
      rw [Arena.get_push_self] at hat
      obtain ⟨rfl, rfl, rfl⟩ := Derivation.isAt_iff.mp hat
      exact absurd rfl hne

theorem InPlace.lies (h : InPlace task p) (hi : i ∈ p.chart.get f l c) : Lies p f l c i :=
  ⟨h.lt f l c i hi, h.isAt f l c i hi⟩

/-- An act moves no derivation from or to another cell than its own. -/
theorem lies_carryOut_iff (hne : (f, l, c) ≠ a.cell) : Lies (a.carryOut task p) f l c i ↔ Lies p f l c i := by
  by_cases hcut : ∃ cell, a = .cut cell
  case pos =>
    obtain ⟨cell, rfl⟩ := hcut
    exact lies_cutCell_iff
  case neg =>
    have hcut : ∀ cell, a ≠ .cut cell := fun cell he => hcut ⟨cell, he⟩
    exact (adds_carryOut hcut).lies_iff fun he => hne (he.trans (cell_rated hcut))

/-- **An act writes to its own cell only.** -/
theorem get_carryOut_of_lies (hplace : InPlace task p) (hne : (f, l, c) ≠ a.cell) (hi : Lies p f l c i) :
    (a.carryOut task p).arena.get i = p.arena.get i := by
  by_cases hcut : ∃ cell, a = .cut cell
  case pos =>
    obtain ⟨⟨first, last, cat⟩, rfl⟩ := hcut
    exact Chart.get_prune_of_not_mem fun hmem => hne (cell_eq_of_isAt hi.2 (hplace.isAt first last cat i hmem))
  case neg => exact (adds_carryOut fun cell he => hcut ⟨cell, he⟩).arena_get hi.1

theorem inPlace_after (h : InPlace task p) (log : List (Act α)) : InPlace task (after task p log) := by
  induction log generalizing p with
  | nil => exact h
  | cons a log ih => exact ih (h.carryOut a)

/-- **What acts on other cells keep** is kept once the cell is cut. -/
theorem after_of_cut {P : Progress α → Prop} (h : Along task Timely done p log) (hplace : InPlace task p)
    (hcut : .cut (f, l, c) ∈ done) (hp : P p)
    (hkeep : ∀ (p : Progress α) (a : Act α), InPlace task p → (f, l, c) ≠ a.cell → P p →
      P (a.carryOut task p)) : P (after task p log) := by
  induction log generalizing done p with
  | nil => exact hp
  | cons a log ih =>
    have hne : (f, l, c) ≠ a.cell := fun he => h.1.fresh (he ▸ hcut)
    exact ih h.2 (hplace.carryOut a) (List.mem_append_left _ hcut) (hkeep p a hplace hne hp)

/-- **A cell that was cut is left alone.** -/
theorem get_after_of_cut (h : Along task Timely done p log) (hplace : InPlace task p)
    (hcut : .cut (f, l, c) ∈ done) : (after task p log).chart.get f l c = p.chart.get f l c :=
  after_of_cut (P := fun q => q.chart.get f l c = p.chart.get f l c) h hplace hcut rfl
    fun _ _ _ hne hq => (get_carryOut_of_ne hne).trans hq

/-- **No derivation is put into a cell that was cut.** -/
theorem lies_after_iff (h : Along task Timely done p log) (hplace : InPlace task p)
    (hcut : .cut (f, l, c) ∈ done) : Lies (after task p log) f l c i ↔ Lies p f l c i :=
  after_of_cut (P := fun q => Lies q f l c i ↔ Lies p f l c i) h hplace hcut Iff.rfl
    fun _ _ _ hne hq => (lies_carryOut_iff hne).trans hq

/-- **Nothing is written to the derivations of a cell that was cut**, those that were dropped included. -/
theorem get_after_of_lies (h : Along task Timely done p log) (hplace : InPlace task p)
    (hcut : .cut (f, l, c) ∈ done) (hi : Lies p f l c i) :
    (after task p log).arena.get i = p.arena.get i := by
  have hkept : Lies (after task p log) f l c i ∧ (after task p log).arena.get i = p.arena.get i := by
    refine after_of_cut (P := fun q => Lies q f l c i ∧ q.arena.get i = p.arena.get i) h hplace hcut ⟨hi, rfl⟩ ?_
    rintro q a hq hne ⟨hlies, hget⟩
    exact ⟨(lies_carryOut_iff hne).mpr hlies, (get_carryOut_of_lies hq hne hlies).trans hget⟩
  exact hkept.2

/-- **A cell is cut once**, and no act works on it after that. -/
theorem cut_once {cell : Nat × Nat × String} {later : List (Act α)}
    (h : Along task Timely [] p (log ++ .cut cell :: later)) : .cut cell ∉ log ∧ ∀ a ∈ later, a.cell ≠ cell := by
  refine ⟨h.of_split.fresh, fun a ha he => ?_⟩
  obtain ⟨between, rest, rfl⟩ := List.append_of_mem ha
  have hsplit : log ++ .cut cell :: (between ++ a :: rest) = (log ++ .cut cell :: between) ++ a :: rest := by simp
  rw [hsplit] at h
  have hfresh := h.of_split.fresh
  rw [he] at hfresh
  exact hfresh (by simp)

/-- Whether all derivations build on what is in cells that were cut. -/
def Founded (done : List (Act α)) (p : Progress α) : Prop :=
  ∀ i < p.arena.size, ∀ j ∈ (p.arena.get i).children, Stands done p j

/-- An act in time builds on what is in cells that were cut. -/
theorem Founded.carryOut (h : Founded done p) (ha : Timely done p a) :
    Founded (done ++ [a]) (a.carryOut task p) := by
  by_cases hcut : ∃ cell, a = .cut cell
  case pos =>
    obtain ⟨⟨first, last, cat⟩, rfl⟩ := hcut
    intro i hi j hj
    have hchildren : Derivation.Lasting (Derivation.children (α := α)) := fun _ _ _ _ _ _ => rfl
    have hold : j ∈ (p.arena.get i).children := Chart.read_prune hchildren ▸ hj
    exact (h i (Nat.lt_of_lt_of_eq hi size_cutCell) j hold).carryOut ha.fresh
  case neg =>
    have hcut : ∀ cell, a ≠ .cut cell := fun cell he => hcut ⟨cell, he⟩
    intro i hi j hj
    refine Stands.carryOut ?_ ha.fresh
    by_cases hlt : i < p.arena.size
    case pos =>
      rw [(adds_carryOut hcut).arena_get hlt] at hj
      exact h i hlt j hj
    case neg =>
      -- a derivation that was not there before is the one that the act makes
      have hadds : Adds p (p.rated task (a.fresh task p)) (a.carryOut task p) := adds_carryOut hcut
      rcases hadds.effect with ⟨harena, -⟩ | ⟨harena, -⟩
      · rw [harena] at hi
        exact absurd hi hlt
      · rw [harena] at hi hj
        rw [Arena.size_push] at hi
        obtain rfl : i = p.arena.size := by omega
        obtain ⟨features, score, hrated⟩ := rated_eq task p (a.fresh task p)
        rw [Arena.get_push_self, hrated] at hj
        exact ha.children j (Act.children_fresh hcut ▸ hj)

/-- **What a parse has done to its cells**, of which `log` lists what it did, and which `p` is the end of. -/
structure Final (task : Task α) (log : List (Act α)) (p : Progress α) : Prop where
  result : after task (startWithTerminals task) log = p
  /-- Every cell was cut once, and nothing was done to it after that. -/
  once : ∀ f l, ∀ c ∈ p.chart.cats f l, ∃ before later, log = before ++ .cut (f, l, c) :: later ∧
    .cut (f, l, c) ∉ before ∧ ∀ a ∈ later, a.cell ≠ (f, l, c)
  /-- Whatever a derivation was made of was left when its own cell was cut, and it was then what it is in the end. -/
  used : ∀ before o later, log = before ++ .add o :: later → ∀ i ∈ o.application.children,
    let q := after task (startWithTerminals task) before
    ∃ f l c, .cut (f, l, c) ∈ before ∧ i ∈ q.chart.get f l c ∧ (q.arena.get i).isAt f l c = true ∧
      (p.arena.get i).bare = (q.arena.get i).bare
  /-- Children are in the chart in the end, in the cells that they belong in. -/
  children : ∀ i < p.arena.size, ∀ j ∈ (p.arena.get i).children,
    ∃ f l c, j ∈ p.chart.get f l c ∧ (p.arena.get j).isAt f l c = true
  sorted : ∀ f l c, p.arena.Sorted (p.chart.get f l c)
  room : task.beam.policy = .topK → ∀ f l c, (p.chart.get f l c).length ≤ task.beam.size

/-- A cell right after it was cut: in order, and no larger than the beam. -/
theorem sorted_cutCell [Score.Ordered α] (hplace : InPlace task p) (first last : Nat) (cat : String) :
    (cutCell p first last cat).arena.Sorted ((cutCell p first last cat).chart.get first last cat) ∧
      (task.beam.policy = .topK → ((cutCell p first last cat).chart.get first last cat).length ≤ task.beam.size) := by
  rw [← hplace.beam]
  exact ⟨Chart.sorted_prune, Chart.length_get_prune⟩

/-- **A parse that gets to its end has final cells.** -/
theorem final_run [Score.Ordered α] (hready : Ready rules unaries) (h : run task (trieOf rules) unaries = .ok p) :
    Final task (acts task (trieOf rules) unaries) p := by
  obtain ⟨halong, hcut⟩ : Along task Timely [] (startWithTerminals task) (acts task (trieOf rules) unaries) ∧ _ :=
    along_acts hready
  have hcut := hcut p h
  have hresult := after_acts h
  generalize acts task (trieOf rules) unaries = log at halong hresult hcut ⊢
  have hplace : ∀ log, InPlace task (after task (startWithTerminals task) log) := inPlace_after (inPlace_start task)
  have hfounded : Founded log p := by
    have hstart : Founded [] (startWithTerminals task) := fun i hi => nomatch hi
    rw [← hresult]
    exact halong.invariant (P := Founded) hstart (fun done p a ha h => h.carryOut ha) List.prefix_rfl
  -- what has been cut at some time is then what it is in the end
  have hstays : ∀ before later f l c, log = before ++ later → .cut (f, l, c) ∈ before →
      p.chart.get f l c = (after task (startWithTerminals task) before).chart.get f l c ∧
        ∀ i ∈ (after task (startWithTerminals task) before).chart.get f l c,
          (p.arena.get i).bare = ((after task (startWithTerminals task) before).arena.get i).bare := by
    intro before later f l c hlog hmem
    rw [hlog] at halong hresult
    rw [← hresult, after_append]
    refine ⟨get_after_of_cut (along_append.mp halong).2 (hplace before) hmem, fun i hi => ?_⟩
    exact congrArg Derivation.bare (get_after_of_lies (along_append.mp halong).2 (hplace before) hmem
      ((hplace before).lies hi))
  have hends : ∀ f l c, p.arena.Sorted (p.chart.get f l c) ∧
      (task.beam.policy = .topK → (p.chart.get f l c).length ≤ task.beam.size) := by
    intro f l c
    by_cases hc : c ∈ p.chart.cats f l
    case neg =>
      have hnil : p.chart.get f l c = [] :=
        List.eq_nil_iff_forall_not_mem.mpr fun i hi => hc (Chart.mem_cats_of_mem_get hi)
      rw [hnil]
      exact ⟨List.Pairwise.nil, fun _ => Nat.zero_le _⟩
    case pos =>
      obtain ⟨before, later, hlog⟩ := List.append_of_mem (hcut f l c hc)
      have hcell : after task (startWithTerminals task) (before ++ [.cut (f, l, c)]) =
          cutCell (after task (startWithTerminals task) before) f l c := after_append task _ _ _
      obtain ⟨hget, hbare⟩ := hstays (before ++ [.cut (f, l, c)]) later f l c (by simp [hlog]) (by simp)
      rw [hcell] at hget hbare
      obtain ⟨hsorted, hroom⟩ := sorted_cutCell (hplace before) f l c
      rw [hget]
      exact ⟨hsorted.congr_bare hbare, hroom⟩
  exact {
    result := hresult
    once := fun f l c hc => by
      obtain ⟨before, later, hlog⟩ := List.append_of_mem (hcut f l c hc)
      exact ⟨before, later, hlog, cut_once (hlog ▸ halong)⟩
    used := fun before o later hlog i hi => by
      have hsplit := halong
      rw [hlog] at hsplit
      obtain ⟨f, l, c, hmem, hi⟩ := hsplit.of_split.children i hi
      exact ⟨f, l, c, hmem, hi, (hplace before).isAt f l c i hi, (hstays before _ f l c hlog hmem).2 i hi⟩
    children := fun i hi j hj => by
      obtain ⟨f, l, c, -, hj⟩ := hfounded i hi j hj
      exact ⟨f, l, c, hj, (hresult ▸ hplace log).isAt f l c j hj⟩
    sorted := fun f l c => (hends f l c).1
    room := fun hpolicy f l c => (hends f l c).2 hpolicy }

end BottomUp

/-! ## Parses -/

section Conclusions

variable {β : Type}

/-- Something about a derivation that its value, its compatibility and its probability have no part in. -/
def Derivation.Settled (g : Derivation α → β) : Prop :=
  ∀ d value compatibility prob, g { d with value, compatibility, prob } = g d

/-- **Concluding a parse** executes predictions, compares them and gives them probabilities, and does nothing else. -/
theorem Parser.read_conclude {g : Derivation α → β} (hg : Derivation.Settled g) (parser : Parser α) (ex : Example)
    (learning : Bool) (p : Progress α) (i : Nat) :
    g ((parser.conclude ex learning p).arena.get i) = g (p.arena.get i) := by
  have hexecute : ∀ (executor : Executor) (d : Derivation α), g (d.execute executor) = g d := by
    intro executor d
    unfold Derivation.execute
    split
    · rfl
    · exact hg d _ d.compatibility d.prob
  have hset : ∀ (d : Derivation α) (c : α), g (d.setCompatibility c) = g d := by
    intro d c
    unfold Derivation.setCompatibility
    split
    · exact hg d d.value c d.prob
    · rfl
  have hexecuted : ∀ (target : Option Value) (arena : Arena α) (l : List Nat),
      g ((executePredictions parser.executor parser.evaluator target arena l).get i) = g (arena.get i) := by
    intro target arena l
    refine Arena.read_foldl (fun arena => g (arena.get i)) (fun arena k _ => ?_) arena
    refine Arena.read_modify g ?_
    unfold executePrediction
    split
    · exact (hset _ _).trans (hexecute _ _)
    · exact hexecute _ _
  have hrated : ∀ (arena : Arena α) (l : List Nat), g ((setProbabilities arena l).get i) = g (arena.get i) := by
    intro arena l
    refine Arena.read_foldl (fun arena => g (arena.get i)) (fun arena x _ => ?_) arena
    exact Arena.read_modify g (hg (arena.get x.1) (arena.get x.1).value (arena.get x.1).compatibility x.2)
  exact (hrated _ _).trans (hexecuted _ _ _)

end Conclusions

namespace Parser

variable {rules : List Rule} {options : ParserOptions α} {ctx : SemContext} {executor : Executor}
  {extractor : FeatureExtractor α} {evaluator : ValueEvaluator α} {parser : Parser α}

/-- Concluding a parse leaves the order of its predictions alone. -/
theorem sorted_conclude (parser : Parser α) (ex : Example) (learning : Bool) {p : Progress α}
    (h : p.arena.Sorted p.roots) :
    (parser.conclude ex learning p).arena.Sorted (parser.conclude ex learning p).predictions := by
  refine h.congr fun i _ => Prod.mk.inj ?_
  have hsettled : Derivation.Settled fun d : Derivation α => (d.score, d.created) := fun _ _ _ _ => rfl
  exact parser.read_conclude hsettled ex learning p i

/-- **Cells are cut once, and are final from then on.** Let a grammar make categories only. If a bottom-up parse by it
gets to its end, whatever its options are, then every cell was cut once and left alone after that; whatever a
derivation was made of had been left by the cut of its own cell, and was then what it is in the end; every cell is in
order by the scores that its derivations have in the end and, in a beam that goes by size, no larger than the beam. The
predictions are the best ones first. All that the parse does is listed: each of its moments comes of the first acts. -/
theorem final_infer [Score.Ordered α]
    (hparser : Parser.ofRules rules options ctx executor extractor evaluator = .ok parser)
    (hcats : ∀ r ∈ rules, isCat r.lhs = true) (hkind : options.kind = .bottomUp) (weights : Weights α) (ex : Example)
    {p : Progress α} (hp : parser.infer weights ex = .ok p) :
    let task := parser.task weights ex
    let log := BottomUp.acts task parser.trie parser.unaries
    (∀ q ∈ parser.moments weights ex, BottomUp.Reaches task log (startWithTerminals task) q) ∧
      BottomUp.Final task log p ∧
      ∀ learning, (parser.conclude ex learning p).arena.Sorted (parser.conclude ex learning p).predictions := by
  obtain ⟨hsort, rfl, htrie, -⟩ := ofRules_eq_ok hparser
  have hready : BottomUp.Ready rules parser.unaries := ⟨hcats, hsort⟩
  unfold infer at hp
  rw [hkind, htrie] at hp
  have hfinal := BottomUp.final_run hready hp
  refine ⟨fun q hq => ?_, htrie ▸ hfinal, fun learning => sorted_conclude parser ex learning (hfinal.sorted _ _ _)⟩
  unfold moments at hq
  rw [hkind] at hq
  exact BottomUp.reaches_acts hq

/-- A beam for one derivation, with noise. -/
def noisyOptions : ParserOptions Float := { ParserOptions.standard with
  beamSize := 1, noise := 1, draws := fun k => Score.ofNat k / Score.ofNat 16, limit := some 100, coarse := true }

/-- The sum of two terms by a parse with noise. -/
theorem final_infer_sample : ∃ (parser : Parser Float) (p : Progress Float),
    Parser.ofRules sampleRules noisyOptions {} .matching = .ok parser ∧ p.roots.length = 1 ∧
      BottomUp.Final (parser.task Weights.new sampleText)
        (BottomUp.acts (parser.task Weights.new sampleText) parser.trie parser.unaries) p := by
  obtain ⟨parser, p, hparser, hp, -, hroots⟩ :=
    exists_of_sampleOutcome (show sampleOutcome noisyOptions = some (1, 1) by decide +kernel)
  have hfinal := final_infer hparser (by decide) rfl Weights.new sampleText hp
  exact ⟨parser, p, hparser, hroots, hfinal.2.1⟩

end Parser

end Parlance
