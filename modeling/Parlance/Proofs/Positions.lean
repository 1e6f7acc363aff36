import Parlance.Proofs.Cutting
import Parlance.Proofs.Places

/-!
# `Proofs.Positions` — what the places of a derivation tell when a parse is over

A cell is cut once. Until then its derivations are listed in it, each of them once, and nothing is noted on them; from
then on nothing is written to them. What a derivation was made of is in cells that were cut before, so that the places
that its children have noted are final when its own ones are noted.

Hence in the end each derivation has noted its ranks in its cell, before and after the cell was sorted, and the largest
ranks in its tree.

## Contents
- **Acts.** `Act.Fits`: what is put in lies on a span of the text, and nothing is noted on it. `fits_of_mem_acts`.
- **Open cells.** `Listed`, kept by every act.
- **Parses.** `Placed`, what the places tell; `placed_run`, `Parser.placed_infer`.
-/

namespace Parlance

open Progress

variable {α : Type} [Score α]

namespace BottomUp

variable {task : Task α} {rules unaries : List Rule} {p q : Progress α} {a : Act α} {done log : List (Act α)}
  {trie : Trie} {first last f l i : Nat} {c cat : String}

/-! ## Acts -/

/-- **What is put in fits the text**: its span is one of the text, and nothing is noted on it. -/
def Act.Fits (task : Task α) : Act α → Prop
  | plant d => (d.first, d.last) ∈ spansByLength task.length ∧ d.preSort = -1
  | add o => (o.application.first, o.application.last) ∈ spansByLength task.length
  | cut _ => True

/-- What is true along the acts and what is true of each of them. -/
theorem Along.and_of_mem {ok : List (Act α) → Progress α → Act α → Prop} {P : Act α → Prop}
    (h : Along task ok done p log) (hmem : ∀ a ∈ log, P a) :
    Along task (fun done p a => ok done p a ∧ P a) done p log := by
  induction log generalizing done p with
  | nil => trivial
  | cons a log ih =>
    exact ⟨⟨h.1, hmem a List.mem_cons_self⟩, ih h.2 fun b hb => hmem b (List.mem_cons_of_mem _ hb)⟩

omit [Score α] in
theorem exists_of_mem_foldActs {ε σ β κ : Type} {step : σ → β → Except ε σ} {inside : σ → β → List κ} {l : List β}
    {s : σ} {x : κ} (h : x ∈ foldActs step inside l s) : ∃ b ∈ l, ∃ t, x ∈ inside t b := by
  induction l generalizing s with
  | nil => cases h
  | cons b l ih =>
    rcases List.mem_append.mp h with h | h
    · exact ⟨b, List.mem_cons_self, s, h⟩
    · obtain ⟨t, -, h⟩ := mem_andThen.mp h
      obtain ⟨b', hb', ht⟩ := ih h
      exact ⟨b', List.mem_cons_of_mem _ hb', ht⟩

omit [Score α] in
theorem span_of_mem_wholeSpan {chart : Chart α} {app : Application} (h : app ∈ wholeSpan task chart first last trie) :
    app.first = first ∧ app.last = last := by
  obtain ⟨_, _, _, _, -, -, -, h⟩ := exists_of_mem_wholeSpan h
  obtain ⟨r, -, rfl⟩ := List.mem_map.mp h
  exact ⟨rfl, rfl⟩

section Span

variable (hspan : (first, last) ∈ spansByLength task.length)
include hspan

theorem fits_of_mem_applyAllActs {apps : List Application}
    (happs : ∀ app ∈ apps, app.first = first ∧ app.last = last) (h : a ∈ applyAllActs task p apps) :
    a.Fits task := by
  obtain ⟨app, happ, candidate, rfl⟩ := exists_of_mem_applyAllActs h
  obtain ⟨rfl, rfl⟩ := happs app happ
  exact hspan

omit [Score α] hspan in
theorem fits_of_mem_pruneActs {pruned : List String} (h : a ∈ pruneActs first last pruned cat) : a.Fits task := by
  unfold pruneActs at h
  split at h
  case isTrue => cases h
  case isFalse =>
    rw [List.mem_singleton.mp h]
    trivial

theorem fits_of_mem_unaryActs {state : Progress α × List String} {rule : Rule}
    (h : a ∈ unaryActs task first last state rule) : a.Fits task := by
  unfold unaryActs at h
  split at h
  case isTrue => cases h
  case isFalse =>
    rcases List.mem_append.mp h with h | h
    · exact fits_of_mem_pruneActs h
    · refine fits_of_mem_applyAllActs hspan (fun app happ => ?_) h
      obtain ⟨d, -, rfl⟩ := List.mem_map.mp happ
      exact ⟨rfl, rfl⟩

omit hspan in
theorem fits_of_mem_cutActs {cats : List String} {state : Progress α × List String}
    (h : a ∈ cutActs first last cats state) : a.Fits task := by
  induction cats generalizing state with
  | nil => cases h
  | cons cat rest ih =>
    rcases List.mem_append.mp h with h | h
    · exact fits_of_mem_pruneActs h
    · exact ih h

theorem fits_of_mem_spanActs (h : a ∈ spanActs task trie unaries p (first, last)) : a.Fits task := by
  rcases List.mem_append.mp h with h | h
  · exact fits_of_mem_applyAllActs hspan (fun app happ => (way_of_mem_coverings happ).span) h
  obtain ⟨p₁, -, h⟩ := mem_andThen.mp h
  rcases List.mem_append.mp h with h | h
  · exact fits_of_mem_applyAllActs hspan (fun app happ => span_of_mem_wholeSpan happ) h
  obtain ⟨p₂, -, h⟩ := mem_andThen.mp h
  rcases List.mem_append.mp h with h | h
  · obtain ⟨rule, -, state, h⟩ := exists_of_mem_foldActs h
    exact fits_of_mem_unaryActs hspan h
  obtain ⟨state, -, h⟩ := mem_andThen.mp h
  exact fits_of_mem_cutActs h

end Span

/-- **Whatever a parse puts in fits the text.** -/
theorem fits_of_mem_acts (h : a ∈ acts task trie unaries) : a.Fits task := by
  rcases List.mem_append.mp h with h | h
  · obtain ⟨d, hd, rfl⟩ := List.mem_map.mp h
    obtain ⟨t, ht, n, rfl⟩ := exists_terminal hd
    obtain ⟨hfirst, hlast, -⟩ := mem_terminals ht
    exact ⟨mem_spansByLength.mpr ⟨hfirst, hlast⟩, rfl⟩
  · obtain ⟨⟨first, last⟩, hspan, q, h⟩ := exists_of_mem_foldActs h
    exact fits_of_mem_spanActs hspan h

/-! ## Open cells -/

/-- **Until its cell is cut, a derivation is listed there**, once, and nothing is noted on it. -/
structure Listed (task : Task α) (done : List (Act α)) (p : Progress α) : Prop where
  inPlace : InPlace task p
  hasSpan : ∀ f l, (f, l) ∈ spansByLength task.length → p.chart.HasSpan f l
  nodup : ∀ f l c, (p.chart.get f l c).Nodup
  waiting : ∀ f l c i, .cut (f, l, c) ∉ done → Lies p f l c i →
    i ∈ p.chart.get f l c ∧ (p.arena.get i).preSort = -1
  /-- Derivations were put in after what they were made of. -/
  descending : ∀ i < p.arena.size, ∀ j ∈ (p.arena.get i).children, j < i

namespace Listed

theorem start (task : Task α) : Listed task [] (startWithTerminals task) where
  inPlace := inPlace_start task
  hasSpan f l h := by
    obtain ⟨hf, hl⟩ := mem_spansByLength.mp h
    exact Chart.hasSpan_new task.beam (Nat.lt_of_lt_of_le hf hl) hl
  nodup f l c := by
    have hget : (startWithTerminals task).chart.get f l c = [] := by
      rw [Chart.get_eq, show (startWithTerminals task).chart.cellAt f l = .empty from Chart.cellAt_new _ _ f l]
      rfl
    rw [hget]
    exact List.nodup_nil
  waiting f l c i _ hi := nomatch hi.1
  descending i hi := nomatch hi

/-- Nothing but the cells and the arena matters. -/
theorem congr (h : Listed task done p) (hplace : InPlace task q) (harena : q.arena = p.arena)
    (hcells : q.chart.cells = p.chart.cells) : Listed task done q := by
  have hget : ∀ f l c, q.chart.get f l c = p.chart.get f l c := fun f l c => by
    rw [Chart.get_eq, Chart.cellAt_congr hcells, ← Chart.get_eq]
  exact {
    inPlace := hplace
    hasSpan := fun f l hs => by
      unfold Chart.HasSpan Chart.cell?
      rw [hcells]
      exact h.hasSpan f l hs
    nodup := fun f l c => hget f l c ▸ h.nodup f l c
    waiting := fun f l c i hopen hi => by
      unfold Lies at hi
      rw [harena] at hi ⊢
      rw [hget]
      exact h.waiting f l c i hopen hi
    descending := by
      rw [harena]
      exact h.descending }

/-- A new derivation at the end of its cell. -/
theorem push {d : Derivation α} (h : Listed task done p) (hplace : InPlace task q)
    (harena : q.arena = p.arena.push d)
    (hcells : q.chart.cells = (p.chart.push d.first d.last d.cat p.arena.size).cells)
    (hspan : (d.first, d.last) ∈ spansByLength task.length) (hpre : d.preSort = -1)
    (hchildren : ∀ j ∈ d.children, j < p.arena.size) : Listed task done q := by
  have hget : ∀ f l c, q.chart.get f l c =
      p.chart.get f l c ++ if f = d.first ∧ l = d.last ∧ c = d.cat then [p.arena.size] else [] := fun f l c => by
    rw [Chart.get_eq, Chart.cellAt_congr hcells, ← Chart.get_eq, Chart.get_push (h.hasSpan _ _ hspan)]
  exact {
    inPlace := hplace
    hasSpan := fun f l hs => by
      have hpush : (p.chart.push d.first d.last d.cat p.arena.size).HasSpan f l :=
        Chart.hasSpan_push.mpr (h.hasSpan f l hs)
      unfold Chart.HasSpan Chart.cell? at hpush ⊢
      rw [hcells]
      exact hpush
    nodup := fun f l c => by
      rw [hget]
      split
      · refine List.nodup_append.mpr ⟨h.nodup f l c, List.nodup_singleton _, fun i hi j hj => ?_⟩
        rw [List.mem_singleton.mp hj]
        exact Nat.ne_of_lt (h.inPlace.lt f l c i hi)
      · rw [List.append_nil]
        exact h.nodup f l c
    waiting := fun f l c i hopen ⟨hi, hat⟩ => by
      rw [harena, Arena.size_push] at hi
      rw [harena] at hat ⊢
      rw [hget]
      by_cases hlt : i < p.arena.size
      case pos =>
        rw [Arena.get_push_of_lt hlt] at hat ⊢
        obtain ⟨hmem, hfresh⟩ := h.waiting f l c i hopen ⟨hlt, hat⟩
        exact ⟨List.mem_append_left _ hmem, hfresh⟩
      case neg =>
        obtain rfl : i = p.arena.size := by omega
        rw [Arena.get_push_self] at hat ⊢
        obtain ⟨rfl, rfl, rfl⟩ := Derivation.isAt_iff.mp hat
        rw [if_pos ⟨rfl, rfl, rfl⟩]
        exact ⟨List.mem_append_right _ (List.mem_singleton_self _), hpre⟩
    descending := fun i hi j hj => by
      rw [harena, Arena.size_push] at hi
      rw [harena] at hj
      by_cases hlt : i < p.arena.size
      case pos =>
        rw [Arena.get_push_of_lt hlt] at hj
        exact h.descending i hlt j hj
      case neg =>
        obtain rfl : i = p.arena.size := by omega
        rw [Arena.get_push_self] at hj
        exact hchildren j hj }

/-- Putting in a derivation. -/
theorem adds {d : Derivation α} (h : Listed task done p) (hq : Adds p d q)
    (hspan : (d.first, d.last) ∈ spansByLength task.length) (hpre : d.preSort = -1)
    (hchildren : ∀ j ∈ d.children, j < p.arena.size) : Listed task done q := by
  have hplace := h.inPlace.adds hq
  rcases hq.effect with ⟨harena, hcells⟩ | ⟨harena, hcells⟩
  · exact h.congr hplace harena hcells
  · exact h.push hplace harena hcells hspan hpre hchildren

/-- Cutting a cell. -/
theorem cut (h : Listed task done p) (first last : Nat) (cat : String) :
    Listed task (done ++ [.cut (first, last, cat)]) (cutCell p first last cat) where
  inPlace := h.inPlace.cut first last cat
  hasSpan f l hs := (Chart.hasSpan_prune p.arena).mpr (h.hasSpan f l hs)
  nodup f l c := by
    by_cases he : (f, l, c) = (first, last, cat)
    case pos =>
      obtain ⟨rfl, rfl, rfl⟩ := he
      have hget : (cutCell p first last cat).chart.get first last cat = _ := Chart.get_prune_eq_cut
      rw [hget]
      exact ((Arena.sort_perm _ _).nodup_iff.mpr (h.nodup first last cat)).sublist (Beam.cut_sublist _ _ _)
    case neg =>
      rw [get_cutCell_of_ne he]
      exact h.nodup f l c
  waiting f l c i hopen hi := by
    rw [List.mem_append, List.mem_singleton, not_or] at hopen
    have hne : (f, l, c) ≠ (first, last, cat) := fun he => hopen.2 (by rw [he])
    have hi := lies_cutCell_iff.mp hi
    obtain ⟨hmem, hfresh⟩ := h.waiting f l c i hopen.1 hi
    have hother : i ∉ p.chart.get first last cat :=
      fun hm => hne (cell_eq_of_isAt hi.2 (h.inPlace.isAt first last cat i hm))
    have hget : (cutCell p first last cat).arena.get i = p.arena.get i := Chart.get_prune_of_not_mem hother
    rw [get_cutCell_of_ne hne, hget]
    exact ⟨hmem, hfresh⟩
  descending i hi j hj := by
    have hchildren : Derivation.Lasting (Derivation.children (α := α)) := fun _ _ _ _ _ _ => rfl
    exact h.descending i (Nat.lt_of_lt_of_eq hi size_cutCell) j (Chart.read_prune hchildren ▸ hj)

theorem mono {done' : List (Act α)} (h : Listed task done p) (hdone : done ⊆ done') : Listed task done' p :=
  { h with waiting := fun f l c i hopen hi => h.waiting f l c i (fun hcut => hopen (hdone hcut)) hi }

/-- **Every act in time keeps open cells in order.** -/
theorem carryOut (h : Listed task done p) (ha : Timely done p a) (hfits : a.Fits task) :
    Listed task (done ++ [a]) (a.carryOut task p) := by
  have hchildren : ∀ j ∈ a.children, j < p.arena.size := by
    intro j hj
    obtain ⟨f, l, c, -, hj⟩ := ha.children j hj
    exact h.inPlace.lt f l c j hj
  cases a with
  | cut cell => exact h.cut cell.1 cell.2.1 cell.2.2
  | plant d =>
    have hadds : Adds p (p.rated task d) (Act.carryOut task p (.plant d)) :=
      adds_carryOut (a := .plant d) fun _ => nofun
    obtain ⟨features, score, hrated⟩ := rated_eq task p d
    rw [hrated] at hadds
    exact (h.adds hadds hfits.1 hfits.2 hchildren).mono (List.subset_append_left _ _)
  | add o =>
    have hadds : Adds p (p.rated task (p.make task o.application o.candidate).1) (Act.carryOut task p (.add o)) :=
      adds_carryOut (a := .add o) fun _ => nofun
    obtain ⟨features, score, hrated⟩ := rated_eq task p (p.make task o.application o.candidate).1
    rw [hrated] at hadds
    exact (h.adds hadds hfits rfl hchildren).mono (List.subset_append_left _ _)

end Listed

/-! ## Parses -/

/-- **What the places of a derivation tell**, of a parse whose acts are `log` and which `p` is the end of. -/
structure Placed (task : Task α) (log : List (Act α)) (p : Progress α) (i : Nat) : Prop where
  /-- Its cell was cut once and left alone after that. Its own places are its ranks in the cell, before it was sorted
  and after that; what is left of the cell are the first ones of the sorted cell. -/
  ranked : ∃ before f l c later, log = before ++ .cut (f, l, c) :: later ∧ .cut (f, l, c) ∉ before ∧
    (∀ a ∈ later, a.cell ≠ (f, l, c)) ∧ (p.arena.get i).isAt f l c = true ∧
    let cell := (after task (startWithTerminals task) before).chart.get f l c
    p.arena.Ranked cell i ∧ p.chart.get f l c = task.beam.cut p.arena (p.arena.sort cell)
  /-- The largest place after sorting in its tree. -/
  maxBeam : IsGreatest {x | ∃ j, Relation.ReflTransGen p.arena.Child i j ∧ x = (p.arena.get j).postSort}
    (p.arena.get i).maxBeam
  /-- The largest place before sorting in its tree. -/
  maxUnsorted : IsGreatest {x | ∃ j, Relation.ReflTransGen p.arena.Child i j ∧ x = (p.arena.get j).preSort}
    (p.arena.get i).maxUnsorted
  /-- All places were noted. -/
  nonneg : 0 ≤ (p.arena.get i).preSort ∧ 0 ≤ (p.arena.get i).postSort ∧ 0 ≤ (p.arena.get i).maxUnsorted ∧
    0 ≤ (p.arena.get i).maxBeam
  /-- Whatever it is made of was in a beam that goes by size. -/
  topK : task.beam.policy = .topK → ∀ j, Relation.TransGen p.arena.Child i j →
    (p.arena.get j).postSort < task.beam.size

/-- **After any acts of a parse** all derivations build on what is in cells that were cut, and those whose cells were
not are listed there. -/
theorem kept_after (hready : Ready rules unaries) {before : List (Act α)}
    (hbefore : before <+: acts task (trieOf rules) unaries) :
    Founded before (after task (startWithTerminals task) before) ∧
      Listed task before (after task (startWithTerminals task) before) := by
  have hfits : ∀ a ∈ acts task (trieOf rules) unaries, a.Fits task := fun a ha => fits_of_mem_acts ha
  have hstart : Founded [] (startWithTerminals task) ∧ Listed task [] (startWithTerminals task) :=
    ⟨fun i hi => (nomatch hi), Listed.start task⟩
  refine ((along_acts hready).1.and_of_mem hfits).invariant (P := fun done p => Founded done p ∧ Listed task done p)
    hstart ?_ hbefore
  rintro done p a ⟨ha, hfits⟩ ⟨hfounded, hlisted⟩
  exact ⟨hfounded.carryOut ha, hlisted.carryOut ha hfits⟩

/-- **Cutting an open cell** notes places on whatever belongs to it. -/
theorem noted_cutCell (hlisted : Listed task done p) (hfounded : Founded done p) (hopen : .cut (f, l, c) ∉ done)
    (hi : Lies p f l c i) : (cutCell p f l c).arena.Noted (p.chart.get f l c) i := by
  have hplace := hlisted.inPlace
  refine Chart.noted_prune (hlisted.nodup f l c) (hplace.lt f l c) (fun j hj => ?_) (fun j hj k hk hmem => ?_)
    (hlisted.waiting f l c i hopen hi).1
  · exact (hlisted.waiting f l c j hopen (hplace.lies hj)).2
  · -- children are in cells that were cut, and this one was not
    obtain ⟨f', l', c', hcut, hk⟩ := hfounded j (hplace.lt f l c j hj) k hk
    exact hopen (cell_eq_of_isAt (hplace.isAt f l c k hmem) (hplace.isAt f' l' c' k hk) ▸ hcut)

/-- **What was noted stays.** Once an open cell was cut, nothing is written to it, to whatever belongs to it, and to
what that was made of. -/
theorem noted_after (hlisted : Listed task done p) (hfounded : Founded done p) (hopen : .cut (f, l, c) ∉ done)
    (hlater : Along task Timely (done ++ [.cut (f, l, c)]) (cutCell p f l c) log) (hi : Lies p f l c i) :
    let q := after task (cutCell p f l c) log
    let cell := p.chart.get f l c
    q.arena.Noted cell i ∧ q.chart.get f l c = task.beam.cut q.arena (q.arena.sort cell) := by
  dsimp only
  have hplace := hlisted.inPlace
  have hcut : .cut (f, l, c) ∈ done ++ [.cut (f, l, c)] := List.mem_append_right _ (List.mem_singleton_self _)
  have hstays : ∀ {f' l' c' j}, .cut (f', l', c') ∈ done ++ [.cut (f, l, c)] → j ∈ p.chart.get f' l' c' →
      (after task (cutCell p f l c) log).arena.get j = (cutCell p f l c).arena.get j := fun hcut hj =>
    get_after_of_lies hlater (hplace.cut f l c) hcut (lies_cutCell_iff.mpr (hplace.lies hj))
  have hget : (after task (cutCell p f l c) log).chart.get f l c = (cutCell p f l c).chart.get f l c :=
    get_after_of_cut hlater (hplace.cut f l c) hcut
  generalize after task (cutCell p f l c) log = q at hstays hget ⊢
  have hcell : ∀ j ∈ p.chart.get f l c, q.arena.get j = (cutCell p f l c).arena.get j := fun j hj => hstays hcut hj
  refine ⟨(noted_cutCell hlisted hfounded hopen hi).congr hcell fun j hj => ?_, ?_⟩
  · -- children are in cells that were cut before
    have hchildren : Derivation.Lasting (Derivation.children (α := α)) := fun _ _ _ _ _ _ => rfl
    obtain ⟨f', l', c', hcut, hj⟩ := hfounded i hi.1 j (Chart.read_prune hchildren ▸ hj)
    exact hstays (List.mem_append_left _ hcut) hj
  · have hkept : (cutCell p f l c).chart.get f l c = p.chart.beam.cut (cutCell p f l c).arena
      ((cutCell p f l c).arena.sort (p.chart.get f l c)) := Chart.get_prune_eq_cut
    have hsort : q.arena.sort (p.chart.get f l c) = (cutCell p f l c).arena.sort (p.chart.get f l c) :=
      Arena.sort_congr_of_mem fun j hj => congrArg Derivation.bare (hcell j hj)
    rw [hget, hkept, hplace.beam, hsort]
    refine Arena.cut_congr_of_mem (fun j hj => congrArg Derivation.score (hcell j ?_).symm) _
    exact (Arena.sort_perm _ _).mem_iff.mp hj

/-- **Whatever a parse has made is in a cell that was cut, and was noted then.** -/
theorem exists_noted (hready : Ready rules unaries) (h : run task (trieOf rules) unaries = .ok p)
    (hi : i < p.arena.size) :
    ∃ before f l c later, acts task (trieOf rules) unaries = before ++ .cut (f, l, c) :: later ∧
      .cut (f, l, c) ∉ before ∧ (∀ a ∈ later, a.cell ≠ (f, l, c)) ∧ (p.arena.get i).isAt f l c = true ∧
      let cell := (after task (startWithTerminals task) before).chart.get f l c
      p.arena.Noted cell i ∧ p.chart.get f l c = task.beam.cut p.arena (p.arena.sort cell) := by
  obtain ⟨halong, hcut⟩ : Along task Timely [] (startWithTerminals task) (acts task (trieOf rules) unaries) ∧ _ :=
    along_acts hready
  have hcut := hcut p h
  have hresult := after_acts h
  have hkept : ∀ before, before <+: acts task (trieOf rules) unaries →
      Founded before (after task (startWithTerminals task) before) ∧
        Listed task before (after task (startWithTerminals task) before) := fun _ => kept_after hready
  generalize acts task (trieOf rules) unaries = log at halong hresult hcut hkept ⊢
  obtain ⟨f, l, c, hat⟩ : ∃ f l c, (p.arena.get i).isAt f l c = true :=
    ⟨_, _, _, Derivation.isAt_iff.mpr ⟨rfl, rfl, rfl⟩⟩
  have hlies : Lies p f l c i := ⟨hi, hat⟩
  have hmem : .cut (f, l, c) ∈ log := by
    -- or it would still be listed there
    by_contra hopen
    have hlisted := (hresult ▸ (hkept log List.prefix_rfl).2).waiting f l c i hopen hlies
    exact hopen (hcut f l c (Chart.mem_cats_of_mem_get hlisted.1))
  obtain ⟨before, later, rfl⟩ := List.append_of_mem hmem
  obtain ⟨honce, hlater⟩ := cut_once halong
  obtain ⟨hfounded, hlisted⟩ := hkept before (List.prefix_append before _)
  have hrest : Along task Timely (before ++ [.cut (f, l, c)])
      (cutCell (after task (startWithTerminals task) before) f l c) later := (along_append.mp halong).2.2
  have hp : after task (cutCell (after task (startWithTerminals task) before) f l c) later = p := by
    rw [← hresult, after_append]
    rfl
  have hi : Lies (after task (startWithTerminals task) before) f l c i := by
    have hcut : .cut (f, l, c) ∈ before ++ [.cut (f, l, c)] := List.mem_append_right _ (List.mem_singleton_self _)
    rw [← hp, lies_after_iff hrest (hlisted.inPlace.cut f l c) hcut, lies_cutCell_iff] at hlies
    exact hlies
  exact ⟨before, f, l, c, later, rfl, honce, hlater, hat, hp ▸ noted_after hlisted hfounded honce hrest hi⟩

/-- **The places of whatever a parse has made.** -/
theorem placed_run (hready : Ready rules unaries) (h : run task (trieOf rules) unaries = .ok p)
    (hi : i < p.arena.size) : Placed task (acts task (trieOf rules) unaries) p i := by
  obtain ⟨hfounded, hlisted⟩ : Founded (acts task (trieOf rules) unaries) p ∧
      Listed task (acts task (trieOf rules) unaries) p := after_acts h ▸ kept_after hready List.prefix_rfl
  have hchildren := hlisted.descending
  have hranks : ∀ j < p.arena.size, 0 ≤ (p.arena.get j).preSort ∧ 0 ≤ (p.arena.get j).postSort ∧
      (p.arena.get j).maxUnsorted =
        max (p.arena.get j).preSort (childPlace Derivation.maxUnsorted p.arena (p.arena.get j)) ∧
      (p.arena.get j).maxBeam =
        max (p.arena.get j).postSort (childPlace Derivation.maxBeam p.arena (p.arena.get j)) := by
    intro j hj
    obtain ⟨_, _, _, _, _, -, -, -, -, hnoted, -⟩ := exists_noted hready h hj
    obtain ⟨k, -, hpre⟩ := hnoted.preSort
    obtain ⟨m, -, hpost⟩ := hnoted.postSort
    exact ⟨hpre ▸ Int.natCast_nonneg k, hpost ▸ Int.natCast_nonneg m, hnoted.maxUnsorted, hnoted.maxBeam⟩
  obtain ⟨hpre, hpost, hunsorted, hbeam⟩ := hranks i hi
  exact {
    ranked := by
      obtain ⟨before, f, l, c, later, hlog, honce, hlater, hat, hnoted, hkept⟩ := exists_noted hready h hi
      exact ⟨before, f, l, c, later, hlog, honce, hlater, hat, hnoted.toRanked, hkept⟩
    maxBeam := Arena.isGreatest_place hchildren (fun j hj => (hranks j hj).2.1) (fun j hj => (hranks j hj).2.2.2) i hi
    maxUnsorted := Arena.isGreatest_place hchildren (fun j hj => (hranks j hj).1) (fun j hj => (hranks j hj).2.2.1) i hi
    nonneg := ⟨hpre, hpost, hunsorted ▸ hpre.trans (le_max_left _ _), hbeam ▸ hpost.trans (le_max_left _ _)⟩
    topK := fun hpolicy j hj => by
      obtain ⟨k, hk, hj⟩ := Relation.TransGen.tail'_iff.mp hj
      -- children are left of their cells
      obtain ⟨f, l, c, -, hmem⟩ := hfounded k (Arena.lt_size_of_reflTransGen hchildren hi hk) j hj
      obtain ⟨_, f', l', c', _, -, -, -, hat, hnoted, hkept⟩ := exists_noted hready h (hlisted.inPlace.lt f l c j hmem)
      obtain ⟨rfl, rfl, rfl⟩ := cell_eq_of_isAt (hlisted.inPlace.isAt f l c j hmem) hat
      rw [hkept, Beam.cut, hpolicy] at hmem
      exact hnoted.postSort_lt hmem }

end BottomUp

namespace Parser

variable {rules : List Rule} {options : ParserOptions α} {ctx : SemContext} {executor : Executor}
  {extractor : FeatureExtractor α} {evaluator : ValueEvaluator α} {parser : Parser α}

/-- **What the places of derivations tell.** Let a grammar make categories only. If a bottom-up parse by it gets to its
end, whatever its options are, then each derivation that was made has its ranks for its own places: those in its cell
before the only time that the cell was sorted, and after that. The largest places that it has noted are the largest ones
in its tree. None is left open. In a beam that goes by size, whatever a derivation is made of ranks below that size. -/
theorem placed_infer (hparser : Parser.ofRules rules options ctx executor extractor evaluator = .ok parser)
    (hcats : ∀ r ∈ rules, isCat r.lhs = true) (hkind : options.kind = .bottomUp) (weights : Weights α) (ex : Example)
    {p : Progress α} (hp : parser.infer weights ex = .ok p) :
    ∀ i < p.arena.size, BottomUp.Placed (parser.task weights ex)
      (BottomUp.acts (parser.task weights ex) parser.trie parser.unaries) p i := by
  obtain ⟨hsort, rfl, htrie, -⟩ := ofRules_eq_ok hparser
  have hready : BottomUp.Ready rules parser.unaries := ⟨hcats, hsort⟩
  unfold infer at hp
  rw [hkind, htrie] at hp
  intro i hi
  exact htrie ▸ BottomUp.placed_run hready hp hi

/-- The derivations of the sum of two terms, by a parse with noise. -/
theorem placed_infer_sample : ∃ (parser : Parser Float) (p : Progress Float),
    Parser.ofRules sampleRules noisyOptions {} .matching = .ok parser ∧ p.roots.length = 1 ∧
      ∀ i < p.arena.size, BottomUp.Placed (parser.task Weights.new sampleText)
        (BottomUp.acts (parser.task Weights.new sampleText) parser.trie parser.unaries) p i := by
  obtain ⟨parser, p, hparser, hp, -, hroots⟩ :=
    exists_of_sampleOutcome (show sampleOutcome noisyOptions = some (1, 1) by decide +kernel)
  exact ⟨parser, p, hparser, hroots, placed_infer hparser (by decide) rfl Weights.new sampleText hp⟩

end Parser

end Parlance
