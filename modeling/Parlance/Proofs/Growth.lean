import Mathlib.Data.List.Induction
import Parlance.Parse.BottomUp
import Parlance.Proofs.Chart
import Parlance.Proofs.Fold

/-!
# `Proofs.Growth` — how a parse grows

A parse grows by derivations that are put in one after the other. `Grown` says what that does to the arena and
to the cells; it is all that later proofs need to know about putting in. Applying rules without a limit grows a
parse by the derivations of what the semantic functions yield, which the derivations that are there already
determine.

## Contents
- **Growing.** `Grown`, `numbersAt`, `Grown.trans`.
- **Contents of cells.** `cellOf`: a cell by what its derivations say instead of by their numbers.
- **Derivations of results.** `Output`, `derive`, `record`.
- **Applying.** `applyAll_eq_ok_iff`.
- **Building spans.** `buildSpan_steps_iff`.
-/

namespace Parlance

variable {α β : Type}

/-! ## Growing -/

/-- Whether a derivation belongs in the cell of a category over a span. -/
def Derivation.isAt (d : Derivation α) (first last : Nat) (cat : String) : Bool :=
  d.first == first && d.last == last && d.cat == cat

theorem Derivation.isAt_iff {d : Derivation α} {first last : Nat} {cat : String} :
    d.isAt first last cat = true ↔ d.first = first ∧ d.last = last ∧ d.cat = cat := by
  simp [isAt, and_assoc]

namespace Progress

/-- The numbers of the derivations of a category over a span, among derivations numbered from `i` on. -/
def numbersAt (first last : Nat) (cat : String) (i : Nat) : List (Derivation α) → List Nat
  | [] => []
  | d :: ds =>
    (if d.isAt first last cat then [i] else []) ++ numbersAt first last cat (i + 1) ds

theorem numbersAt_append (first last : Nat) (cat : String) (i : Nat) (ds es : List (Derivation α)) :
    numbersAt first last cat i (ds ++ es) =
      numbersAt first last cat i ds ++ numbersAt first last cat (i + ds.length) es := by
  induction ds generalizing i with
  | nil => rfl
  | cons d ds ih =>
    rw [List.cons_append, numbersAt, numbersAt, ih, List.append_assoc, List.length_cons]
    congr 3
    omega

/-- The numbers of the derivations that belong into a cell, counted from the first one. -/
theorem mem_numbersAt {first last : Nat} {cat : String} {i j : Nat} {ds : List (Derivation α)} :
    j ∈ numbersAt first last cat i ds ↔ ∃ k d, ds[k]? = some d ∧ d.isAt first last cat ∧ j = i + k := by
  induction ds generalizing i with
  | nil => simp [numbersAt]
  | cons d ds ih =>
    rw [numbersAt, List.mem_append, ih]
    constructor
    · rintro (h | ⟨k, e, hk, he, rfl⟩)
      · split at h
        · rename_i hd
          exact ⟨0, d, rfl, hd, by simpa using h⟩
        · cases h
      · exact ⟨k + 1, e, hk, he, by omega⟩
    · rintro ⟨k, e, hk, he, rfl⟩
      cases k with
      | zero =>
        rw [List.getElem?_cons_zero, Option.some.injEq] at hk
        exact Or.inl (by simp [hk, he])
      | succ k => exact Or.inr ⟨k, e, by simpa using hk, he, by omega⟩

/-- The categories of a cell after derivations were put in. -/
def catsWith (first last : Nat) (cats : List String) (ds : List (Derivation α)) : List String :=
  ds.foldl
    (fun cats d =>
      if d.first = first ∧ d.last = last then (if d.cat ∈ cats then cats else cats ++ [d.cat])
      else cats)
    cats

/-- The categories of a span are those it had and those of the derivations that are added to it. -/
theorem mem_catsWith {first last : Nat} {cats : List String} {ds : List (Derivation α)} {c : String} :
    c ∈ catsWith first last cats ds ↔ c ∈ cats ∨ ∃ d ∈ ds, d.isAt first last c := by
  induction ds generalizing cats with
  | nil => simp [catsWith]
  | cons d ds ih =>
    rw [catsWith, List.foldl_cons, ← catsWith, ih]
    simp only [List.mem_cons, exists_eq_or_imp, ← or_assoc]
    refine or_congr_left ?_
    rw [Derivation.isAt_iff]
    split
    · rename_i hs
      split
      · rename_i hc
        exact ⟨Or.inl, fun h => h.elim id fun h => h.2.2 ▸ hc⟩
      · rw [List.mem_append, List.mem_singleton]
        exact or_congr_right ⟨fun h => ⟨hs.1, hs.2, h.symm⟩, fun h => h.2.2.symm⟩
    · rename_i hs
      exact ⟨Or.inl, fun h => h.elim id fun h => absurd ⟨h.1, h.2.1⟩ hs⟩

/-- Derivations over other spans make no difference to a cell. -/
theorem catsWith_eq_self {first last : Nat} {cats : List String} {ds : List (Derivation α)}
    (h : ∀ d ∈ ds, ¬(d.first = first ∧ d.last = last)) : catsWith first last cats ds = cats := by
  induction ds with
  | nil => rfl
  | cons d ds ih =>
    rw [catsWith, List.foldl_cons, if_neg (h d List.mem_cons_self), ← catsWith]
    exact ih fun e he => h e (List.mem_cons_of_mem _ he)

/-- **One parse comes from another one by putting derivations in**, up to places in the beam and counts. -/
structure Grown (p : Progress α) (ds : List (Derivation α)) (q : Progress α) : Prop where
  bares : q.arena.bares = p.arena.bares ++ ds.map Derivation.bare
  get : ∀ f l c, q.chart.get f l c = p.chart.get f l c ++ numbersAt f l c p.arena.size ds
  cats : ∀ f l, q.chart.cats f l = catsWith f l (p.chart.cats f l) ds
  hasSpan : ∀ f l, q.chart.HasSpan f l ↔ p.chart.HasSpan f l
  length : q.chart.length = p.chart.length
  beam : q.chart.beam = p.chart.beam
  maxCell : q.chart.stats.maxCell = p.chart.stats.maxCell
  fellOff : q.chart.stats.fellOff = p.chart.stats.fellOff

theorem Grown.nil {p q : Progress α} (ha : q.arena = p.arena) (hc : q.chart.cells = p.chart.cells)
    (hl : q.chart.length = p.chart.length) (hb : q.chart.beam = p.chart.beam)
    (hm : q.chart.stats.maxCell = p.chart.stats.maxCell)
    (hfell : q.chart.stats.fellOff = p.chart.stats.fellOff) : Grown p [] q where
  bares := by rw [ha]; simp
  get f l c := by unfold Chart.get Chart.cell?; rw [hc]; simp [numbersAt]
  cats f l := by unfold Chart.cats Chart.entries Chart.cell?; rw [hc]; rfl
  hasSpan f l := by unfold Chart.HasSpan Chart.cell?; rw [hc]
  length := hl
  beam := hb
  maxCell := hm
  fellOff := hfell

theorem Grown.refl (p : Progress α) : Grown p [] p := .nil rfl rfl rfl rfl rfl rfl

theorem Grown.size {p q : Progress α} {ds : List (Derivation α)} (h : Grown p ds q) :
    q.arena.size = p.arena.size + ds.length := by
  rw [← Arena.length_bares, h.bares, List.length_append, Arena.length_bares, List.length_map]

theorem Grown.isPrefix {p q : Progress α} {ds : List (Derivation α)} (h : Grown p ds q) :
    p.arena.bares <+: q.arena.bares :=
  ⟨_, h.bares.symm⟩

/-- The new derivations follow those that were there. -/
theorem Grown.bare_get [Score α] {p q : Progress α} {ds : List (Derivation α)} (h : Grown p ds q) {k : Nat}
    {d : Derivation α} (hk : ds[k]? = some d) : (q.arena.get (p.arena.size + k)).bare = d.bare := by
  rw [Arena.bare_get, h.bares, ← Arena.length_bares, List.getElem?_append_right (by omega)]
  simp [hk]

/-- **One growth after another** adds what both of them add. -/
theorem Grown.trans {p q r : Progress α} {ds es : List (Derivation α)} (h : Grown p ds q)
    (h' : Grown q es r) : Grown p (ds ++ es) r where
  bares := by rw [h'.bares, h.bares, List.map_append, List.append_assoc]
  get f l c := by rw [h'.get, h.get, numbersAt_append, h.size, List.append_assoc]
  cats f l := by rw [h'.cats, h.cats, catsWith, catsWith, catsWith, List.foldl_append]
  hasSpan f l := (h'.hasSpan f l).trans (h.hasSpan f l)
  length := h'.length.trans h.length
  beam := h'.beam.trans h.beam
  maxCell := h'.maxCell.trans h.maxCell
  fellOff := h'.fellOff.trans h.fellOff

/-- Putting in one derivation, whose span the chart has. -/
theorem grown_insert (p : Progress α) (d : Derivation α) (hs : p.chart.HasSpan d.first d.last) :
    Grown p [d] (p.insert d) where
  bares := by simp [insert]
  get f l c := by
    have h := Chart.get_push hs d.cat p.arena.size f l c
    simp only [insert, h, numbersAt, Derivation.isAt, List.append_nil, Bool.and_eq_true, beq_iff_eq,
      and_assoc]
    simp only [eq_comm]
  cats f l := by
    simp only [insert, catsWith, List.foldl_cons, List.foldl_nil, Chart.cats_eq]
    by_cases h : d.first = f ∧ d.last = l
    · obtain ⟨rfl, rfl⟩ := h
      rw [Chart.cellAt_push_self hs, Table.keys_update, if_pos (And.intro rfl rfl)]
    · rw [Chart.cellAt_push_of_ne _ fun he => h ⟨he.1.symm, he.2.symm⟩, if_neg h]
  hasSpan f l := Chart.hasSpan_push
  length := rfl
  beam := rfl
  maxCell := rfl
  fellOff := rfl

theorem nodup_catsWith {first last : Nat} {cats : List String} (h : cats.Nodup)
    (ds : List (Derivation α)) : (catsWith first last cats ds).Nodup := by
  induction ds generalizing cats with
  | nil => exact h
  | cons d ds ih =>
    rw [catsWith, List.foldl_cons, ← catsWith]
    refine ih ?_
    split
    · split
      · exact h
      · rename_i hc
        exact List.nodup_append.mpr ⟨h, by simp, fun a ha b hb he =>
          hc (by rw [List.mem_singleton] at hb; exact hb ▸ he ▸ ha)⟩
    · exact h

/-- A chart that grows lists no category twice. -/
theorem Grown.distinct {p q : Progress α} {ds : List (Derivation α)} (h : Grown p ds q)
    (hd : p.chart.Distinct) : q.chart.Distinct := by
  intro f l
  have hc := h.cats f l
  rw [Chart.cats_eq] at hc
  unfold Table.Distinct
  rw [hc]
  refine nodup_catsWith ?_ ds
  rw [Chart.cats_eq]
  exact hd f l

/-! ## Contents of cells -/

/-- A cell by what a function reads off each of its derivations. -/
def cellOf (g : Arena α → Nat → β) (p : Progress α) (first last : Nat) (cat : String) : List β :=
  (p.chart.get first last cat).map (g p.arena)

/-- What a function reads off a derivation does not change when the parse goes on. -/
def Steady (g : Arena α → Nat → β) : Prop :=
  ∀ a b, a.bares <+: b.bares → ∀ i < a.size, g b i = g a i

/-- Every number in the chart belongs to a derivation. -/
def Bounded (p : Progress α) : Prop := ∀ f l c, ∀ i ∈ p.chart.get f l c, i < p.arena.size

theorem map_numbersAt {g : Nat → β} {h : Derivation α → β} {first last i : Nat} {cat : String}
    {ds : List (Derivation α)} (hg : ∀ k d, ds[k]? = some d → g (i + k) = h d) :
    (numbersAt first last cat i ds).map g = (ds.filter fun d => d.isAt first last cat).map h := by
  induction ds generalizing i with
  | nil => rfl
  | cons d ds ih =>
    have hd : g i = h d := hg 0 d rfl
    have hds : ∀ k e, ds[k]? = some e → g (i + 1 + k) = h e := fun k e he => by
      have := hg (k + 1) e (by simpa using he)
      rwa [show i + (k + 1) = i + 1 + k by omega] at this
    rw [numbersAt, List.map_append, ih hds, List.filter_cons]
    split <;> simp [hd]

/-- A cell has what it had before, and then the new derivations that belong in it. -/
theorem Grown.cellOf {p q : Progress α} {ds : List (Derivation α)} (hq : Grown p ds q)
    {g : Arena α → Nat → β} (hg : Steady g) (hp : p.Bounded) {h : Derivation α → β}
    (hnew : ∀ k d, ds[k]? = some d → g q.arena (p.arena.size + k) = h d) (f l : Nat) (c : String) :
    q.cellOf g f l c = p.cellOf g f l c ++ (ds.filter fun d => d.isAt f l c).map h := by
  unfold Progress.cellOf
  rw [hq.get, List.map_append, map_numbersAt hnew]
  congr 1
  exact List.map_congr_left fun i hi => hg _ _ hq.isPrefix i (hp f l c i hi)

/-- What is listed stays in the arena. -/
theorem Grown.bounded {p q : Progress α} {ds : List (Derivation α)} (h : Grown p ds q)
    (hp : p.Bounded) : q.Bounded := by
  intro f l c i hi
  rw [h.get, List.mem_append] at hi
  rw [h.size]
  rcases hi with hi | hi
  · exact Nat.lt_add_right _ (hp f l c i hi)
  · obtain ⟨k, d, hk, -, rfl⟩ := mem_numbersAt.mp hi
    have := (List.getElem?_eq_some_iff.mp hk).1
    omega

/-! ## Derivations of results -/

variable [Score α]

/-- A rule that was applied, with one of its results. -/
structure Output where
  application : Application
  candidate : Candidate

/-- Whether the derivation of a result gets into the chart. -/
def Output.isKept (task : Task α) (o : Output) : Bool :=
  !(task.pruneErrors && (o.candidate.value.map Value.isError).getD false)

/-- A derivation with its score, and with the features that it depends on. -/
def rated (p : Progress α) (task : Task α) (d : Derivation α) : Derivation α :=
  (p.featurize task d).1

/-- The derivation of a result if it is the one with number `n` to be made, scored. -/
def derive (p : Progress α) (task : Task α) (o : Output) (n : Nat) : Derivation α :=
  p.rated task (.ofCandidate o.application.rule (p.call o.application) o.application.children
    o.candidate (task.supply n))

/-- Makes the derivation of a result and adds it to the chart. -/
def record (task : Task α) (p : Progress α) (o : Output) : Progress α :=
  let (d, p) := p.make task o.application o.candidate
  let (d, p) := p.featurize task d
  p.addToChart task d

variable {task : Task α}

/-- Scoring sets the features and the score, and nothing else. -/
theorem rated_eq (task : Task α) (p : Progress α) (d : Derivation α) :
    ∃ features score, p.rated task d = { d with features, score } := by
  unfold rated featurize
  by_cases h : d.isScored
  · rw [if_pos h]
    exact ⟨_, _, rfl⟩
  · rw [if_neg h]
    exact ⟨_, _, rfl⟩

/-- Scores do not depend on when a derivation was made. -/
theorem rated_created (p : Progress α) (d : Derivation α) (n : Nat) :
    p.rated task { d with created := n } = { p.rated task d with created := n } := by
  unfold rated featurize
  by_cases h : d.isScored
  · rw [if_pos h, if_pos (show Derivation.isScored { d with created := n } from h)]
  · rw [if_neg h, if_neg (show ¬ Derivation.isScored { d with created := n } from h)]
    rfl

theorem rated_of_arena {p q : Progress α} (h : q.arena = p.arena) (d : Derivation α) :
    q.rated task d = p.rated task d := by
  unfold rated featurize extract
  split
  · rfl
  · rw [h]

/-- Features and scores depend on the trees of the children only. -/
theorem rated_congr {p q : Progress α} {d : Derivation α} (h : p.arena.bares <+: q.arena.bares)
    (hc : ∀ c ∈ d.children, c < p.arena.size) : q.rated task d = p.rated task d := by
  have hs : d.children.map q.arena.score = d.children.map p.arena.score :=
    List.map_congr_left fun c hm => by
      have hb := congrArg Derivation.score (Arena.bare_get_of_isPrefix h (hc c hm))
      exact hb
  have hextract : q.extract task d = p.extract task d := by
    unfold extract
    rw [Arena.unfold_derivation_of_isPrefix h hc]
  have hlocal : ∀ e : Derivation α, e.children = d.children →
      q.arena.scoreLocal task.weights e = p.arena.scoreLocal task.weights e := fun e he => by
    unfold Arena.scoreLocal
    rw [he, hs]
  unfold rated featurize
  split
  · rfl
  · rw [hextract]
    exact hlocal _ rfl

/-- A rule is called with the same children, however the arena grows. -/
theorem call_congr {p q : Progress α} {a : Application} (h : p.arena.bares <+: q.arena.bares)
    (hc : ∀ c ∈ a.children, c < p.arena.size) : q.call a = p.call a := by
  have hs : (a.children.map fun c => (q.arena.get c).toChild) =
      a.children.map fun c => (p.arena.get c).toChild :=
    List.map_congr_left fun c hm => by
      have hb := congrArg Derivation.toChild (Arena.bare_get_of_isPrefix h (hc c hm))
      exact hb
  unfold call
  rw [hs]

/-- And so it has the same results. -/
theorem results_congr {p q : Progress α} {a : Application} (h : p.arena.bares <+: q.arena.bares)
    (hc : ∀ c ∈ a.children, c < p.arena.size) : q.results task a = p.results task a := by
  unfold results
  rw [call_congr h hc]

theorem derive_congr {p q : Progress α} {o : Output} (h : p.arena.bares <+: q.arena.bares)
    (hc : ∀ c ∈ o.application.children, c < p.arena.size) (n : Nat) :
    q.derive task o n = p.derive task o n := by
  unfold derive
  rw [call_congr h hc]
  exact rated_congr h hc

theorem isAt_derive (p : Progress α) (o : Output) (n f l : Nat) (c : String) :
    (p.derive task o n).isAt f l c =
      (o.application.first == f && o.application.last == l && o.application.rule.lhs == c) := by
  obtain ⟨features, score, h⟩ := rated_eq task p _
  rw [derive, h]
  rfl

theorem hasErrorValue_derive (p : Progress α) (o : Output) (n : Nat) :
    (p.derive task o n).hasErrorValue = (o.candidate.value.map Value.isError).getD false := by
  obtain ⟨features, score, h⟩ := rated_eq task p _
  rw [derive, h]
  rfl

theorem children_derive (p : Progress α) (o : Output) (n : Nat) :
    (p.derive task o n).children = o.application.children := by
  obtain ⟨features, score, h⟩ := rated_eq task p _
  rw [derive, h]
  rfl

/-- The derivations of results, in the order in which they are made, the first of them with number `n`. -/
def derivations (p : Progress α) (task : Task α) (outs : List Output) (n : Nat) :
    List (Derivation α) :=
  ((outs.zipIdx n).filter fun o => o.1.isKept task).map fun o => p.derive task o.1 o.2

theorem derivations_cons (p : Progress α) (o : Output) (outs : List Output) (n : Nat) :
    p.derivations task (o :: outs) n =
      (if o.isKept task then [p.derive task o n] else []) ++ p.derivations task outs (n + 1) := by
  unfold derivations
  rw [List.zipIdx_cons, List.filter_cons]
  split <;> rfl

/-- Derivations are numbered on from those before them. -/
theorem derivations_append (p : Progress α) (outs outs' : List Output) (n : Nat) :
    p.derivations task (outs ++ outs') n =
      p.derivations task outs n ++ p.derivations task outs' (n + outs.length) := by
  unfold derivations
  rw [List.zipIdx_append, List.filter_append, List.map_append]

/-- What the outputs become does not change while the arena grows. -/
theorem derivations_congr {p q : Progress α} {outs : List Output} (h : p.arena.bares <+: q.arena.bares)
    (hc : ∀ o ∈ outs, ∀ c ∈ o.application.children, c < p.arena.size) (n : Nat) :
    q.derivations task outs n = p.derivations task outs n := by
  unfold derivations
  refine List.map_congr_left fun o ho => derive_congr h (hc _ ?_) _
  exact List.fst_mem_of_mem_zipIdx (List.mem_filter.mp ho).1

theorem grown_featurize (task : Task α) (p : Progress α) (d : Derivation α) :
    Grown p [] (p.featurize task d).2 ∧ (p.featurize task d).2.made = p.made := by
  unfold featurize
  split
  · exact ⟨.refl p, rfl⟩
  · exact ⟨.nil rfl rfl rfl rfl rfl rfl, rfl⟩

omit [Score α] in
/-- **To add a derivation** makes the chart grow by it, unless it is kept out for its value. -/
theorem grown_addToChart (task : Task α) (p : Progress α) (d : Derivation α) (hs : p.chart.HasSpan d.first d.last) :
    Grown p (if !(task.pruneErrors && d.hasErrorValue) then [d] else []) (p.addToChart task d) ∧
      (p.addToChart task d).made = p.made := by
  unfold addToChart
  cases h : task.pruneErrors && d.hasErrorValue with
  | true => exact ⟨.refl p, rfl⟩
  | false =>
    have hcount : Grown p [] p.count := .nil rfl rfl rfl rfl rfl rfl
    exact ⟨hcount.trans (grown_insert p.count d hs), rfl⟩

/-- **Making one derivation.** -/
theorem grown_record (task : Task α) (p : Progress α) (o : Output)
    (hs : p.chart.HasSpan o.application.first o.application.last) :
    Grown p (p.derivations task [o] p.made) (record task p o) ∧ (record task p o).made = p.made + 1 := by
  have hd : p.derivations task [o] p.made = if o.isKept task then [p.derive task o p.made] else [] := by
    rw [derivations_cons]
    exact List.append_nil _
  have hk : o.isKept task = !(task.pruneErrors && (p.derive task o p.made).hasErrorValue) := by
    rw [hasErrorValue_derive]
    rfl
  have hspan : p.chart.HasSpan (p.derive task o p.made).first (p.derive task o p.made).last := by
    obtain ⟨features, score, he⟩ := rated_eq task p _
    rw [derive, he]
    exact hs
  let q : Progress α := { p with made := p.made + 1 }
  let d := (p.make task o.application o.candidate).1
  have hrec : record task p o = (q.featurize task d).2.addToChart task (p.derive task o p.made) := by
    show (q.featurize task d).2.addToChart task (q.rated task d) = _
    rw [rated_of_arena (p := p) (q := q) rfl]
    rfl
  have hq : Grown p [] q := .nil rfl rfl rfl rfl rfl rfl
  obtain ⟨hf, hfm⟩ := grown_featurize task q d
  obtain ⟨ha, ham⟩ := grown_addToChart task (q.featurize task d).2 (p.derive task o p.made)
    ((hf.hasSpan _ _).mpr hspan)
  rw [hd, hk, hrec]
  exact ⟨(hq.trans hf).trans ha, ham.trans hfm⟩

/-- **Making derivations one after the other.** -/
theorem grown_foldl_record (task : Task α) (p : Progress α) (outs : List Output)
    (hs : ∀ o ∈ outs, p.chart.HasSpan o.application.first o.application.last)
    (hc : ∀ o ∈ outs, ∀ c ∈ o.application.children, c < p.arena.size) :
    Grown p (p.derivations task outs p.made) (outs.foldl (record task) p) ∧
      (outs.foldl (record task) p).made = p.made + outs.length := by
  induction outs using List.reverseRecOn with
  | nil => exact ⟨.refl p, rfl⟩
  | append_singleton outs o ih =>
    obtain ⟨hg, hm⟩ := ih (fun o ho => hs o (List.mem_append_left _ ho))
      (fun o ho => hc o (List.mem_append_left _ ho))
    have ho : o ∈ outs ++ [o] := List.mem_append_right _ List.mem_cons_self
    obtain ⟨hg', hm'⟩ := grown_record task (outs.foldl (record task) p) o
      ((hg.hasSpan _ _).mpr (hs o ho))
    rw [List.foldl_append, List.foldl_cons, List.foldl_nil, derivations_append]
    refine ⟨hg.trans ?_, by rw [hm', hm, List.length_append, List.length_singleton, Nat.add_assoc]⟩
    rw [hm] at hg'
    rwa [derivations_congr hg.isPrefix fun o' ho' => hc o' (List.mem_append_right _ ho')] at hg'

/-! ## Applying -/

/-- The results of a rule that are no errors. -/
def outputsOf (p : Progress α) (task : Task α) (a : Application) : List Output :=
  ((p.results task a).items.filterMap Except.toOption).map fun c => ⟨a, c⟩

/-- The results of several rules, those of one rule after those of the other. -/
def outputs (p : Progress α) (task : Task α) (l : List Application) : List Output :=
  l.flatMap (p.outputsOf task)

/-- **None of the results of a rule is an error.** -/
def Succeeds (p : Progress α) (task : Task α) (a : Application) : Prop :=
  ∀ x ∈ (p.results task a).items, ∃ c, x = .ok c

/-- An application of derivations and over a span that are there. -/
structure Application.Fits (p : Progress α) (a : Application) : Prop where
  hasSpan : p.chart.HasSpan a.first a.last
  children : ∀ c ∈ a.children, c < p.arena.size

theorem application_of_mem_outputs {p : Progress α} {l : List Application} {o : Output}
    (h : o ∈ p.outputs task l) : o.application ∈ l := by
  obtain ⟨a, ha, ho⟩ := List.mem_flatMap.mp h
  obtain ⟨c, -, rfl⟩ := List.mem_map.mp ho
  exact ha

/-- What applications put out does not change while the arena grows. -/
theorem outputs_congr {p q : Progress α} {l : List Application} (h : p.arena.bares <+: q.arena.bares)
    (hc : ∀ a ∈ l, ∀ c ∈ a.children, c < p.arena.size) : q.outputs task l = p.outputs task l := by
  induction l with
  | nil => rfl
  | cons a l ih =>
    have ha : q.outputsOf task a = p.outputsOf task a := by
      unfold outputsOf
      rw [results_congr h (hc a List.mem_cons_self)]
    unfold outputs at ih ⊢
    rw [List.flatMap_cons, List.flatMap_cons, ha, ih fun a ha => hc a (List.mem_cons_of_mem _ ha)]

omit [Score α] in
theorem limitReached_of_none (p : Progress α) (h : task.limit = none) : p.limitReached task = false := by
  unfold limitReached
  rw [h]

end Progress

namespace BottomUp

open Progress

variable [Score α] {task : Task α}

/-- Adding the next result. -/
theorem addResults_ok (task : Task α) (a : Application) (candidate : Candidate)
    (rest : List (Except SemanticError Candidate)) (p : Progress α) :
    addResults task a (.ok candidate :: rest) p =
      if (record task p ⟨a, candidate⟩).limitReached task then .ok (record task p ⟨a, candidate⟩)
      else addResults task a rest (record task p ⟨a, candidate⟩) := rfl

/-- Without a limit all results are added, unless one of them is an error. -/
theorem addResults_eq_ok_iff (hl : task.limit = none) (a : Application)
    (items : List (Except SemanticError Candidate)) (p q : Progress α) :
    addResults task a items p = .ok q ↔
      (∀ x ∈ items, ∃ c, x = .ok c) ∧
        q = ((items.filterMap Except.toOption).map fun c => ⟨a, c⟩).foldl (record task) p := by
  induction items generalizing p with
  | nil => simp [addResults, eq_comm]
  | cons x items ih =>
    cases x with
    | error cause => simp [addResults]
    | ok c =>
      have hstep : addResults task a (.ok c :: items) p =
          addResults task a items (record task p ⟨a, c⟩) := by
        rw [addResults_ok, limitReached_of_none _ hl, if_neg Bool.false_ne_true]
      rw [hstep, ih]
      simp [Except.toOption]

/-- **A rule that is applied** without a limit records all its outputs, if none of its results is an error. -/
theorem apply_eq_ok_iff (hl : task.limit = none) (a : Application) (p q : Progress α) :
    apply task p a = .ok q ↔
      p.Succeeds task a ∧ q = (p.outputsOf task a).foldl (record task) p := by
  unfold apply
  rw [limitReached_of_none p hl]
  exact addResults_eq_ok_iff hl a _ p q

/-- **Applying rules without a limit** succeeds iff all their results do, and adds the derivations of all of
them. -/
theorem applyAll_eq_ok_iff (hl : task.limit = none) {l : List Application} {p q : Progress α}
    (hfit : ∀ a ∈ l, Application.Fits p a) :
    applyAll task p l = .ok q ↔
      (∀ a ∈ l, p.Succeeds task a) ∧ q = (p.outputs task l).foldl (record task) p := by
  induction l generalizing p with
  | nil => simp [applyAll, outputs, pure, Except.pure, eq_comm]
  | cons a l ih =>
    have ha := hfit a List.mem_cons_self
    have hrest : ∀ a ∈ l, Application.Fits p a := fun a h => hfit a (List.mem_cons_of_mem _ h)
    obtain ⟨hg, -⟩ := grown_foldl_record task p (p.outputsOf task a)
      (fun o ho => by obtain ⟨c, -, rfl⟩ := List.mem_map.mp ho; exact ha.hasSpan)
      (fun o ho => by obtain ⟨c, -, rfl⟩ := List.mem_map.mp ho; exact ha.children)
    generalize hp' : (p.outputsOf task a).foldl (record task) p = p' at hg
    have hfit' : ∀ a ∈ l, Application.Fits p' a := fun a h =>
      ⟨(hg.hasSpan _ _).mpr (hrest a h).hasSpan, fun c hc =>
        Nat.lt_of_lt_of_le ((hrest a h).children c hc) (Arena.size_le_of_isPrefix hg.isPrefix)⟩
    have houts : p'.outputs task l = p.outputs task l :=
      outputs_congr hg.isPrefix fun a h => (hrest a h).children
    have hsucc : (∀ a ∈ l, p'.Succeeds task a) ↔ ∀ a ∈ l, p.Succeeds task a :=
      forall₂_congr fun a h => by
        unfold Succeeds
        rw [results_congr hg.isPrefix (hrest a h).children]
    have hcons : applyAll task p (a :: l) = .ok q ↔
        ∃ r, apply task p a = .ok r ∧ applyAll task r l = .ok q := by
      unfold applyAll
      rw [List.foldlM_cons, bind_eq_ok]
    rw [hcons]
    constructor
    · rintro ⟨r, hr, hq⟩
      obtain ⟨hs, rfl⟩ := (apply_eq_ok_iff hl a p r).mp hr
      rw [hp'] at hq
      obtain ⟨hss, rfl⟩ := (ih hfit').mp hq
      refine ⟨List.forall_mem_cons.mpr ⟨hs, hsucc.mp hss⟩, ?_⟩
      rw [houts, ← hp', outputs, outputs, List.flatMap_cons, List.foldl_append]
    · rintro ⟨hs, rfl⟩
      obtain ⟨hs, hss⟩ := List.forall_mem_cons.mp hs
      refine ⟨p', (apply_eq_ok_iff hl a p p').mpr ⟨hs, hp'.symm⟩, (ih hfit').mpr ⟨hsucc.mpr hss, ?_⟩⟩
      rw [houts, ← hp', outputs, outputs, List.flatMap_cons, List.foldl_append]

/-- What applying rules does to a parse. -/
theorem grown_applyAll (hl : task.limit = none) {l : List Application} {p q : Progress α}
    (hfit : ∀ a ∈ l, Application.Fits p a) (h : applyAll task p l = .ok q) :
    Grown p (p.derivations task (p.outputs task l) p.made) q ∧
      q.made = p.made + (p.outputs task l).length := by
  obtain ⟨-, rfl⟩ := (applyAll_eq_ok_iff hl hfit).mp h
  exact grown_foldl_record task p (p.outputs task l)
    (fun o ho => (hfit _ (application_of_mem_outputs ho)).hasSpan)
    (fun o ho => (hfit _ (application_of_mem_outputs ho)).children)

/-! ## Building spans -/

/-- **Building a span succeeds** iff each of its steps does: covering it by its parts, covering it by one of them,
and applying the rules from one category to one category. What was not cut by then is cut in the end. -/
theorem buildSpan_steps_iff {trie : Trie} {unaries : List Rule} {first last : Nat} {p q : Progress α} :
    buildSpan task trie unaries p (first, last) = .ok q ↔
      ∃ p₁ p₂ state, applyAll task p (coverings task p.chart first last first trie []) = .ok p₁ ∧
        applyAll task p₁ (wholeSpan task p₁.chart first last trie) = .ok p₂ ∧
        unaries.foldlM (applyUnary task first last) (p₂, []) = .ok state ∧
        q = ((state.1.chart.cats first last).foldl (pruneOnce first last) state).1 := by
  unfold buildSpan
  simp only [bind_eq_ok]
  constructor
  · rintro ⟨p₁, h₁, p₂, h₂, state, h₃, hq⟩
    exact ⟨p₁, p₂, state, h₁, h₂, h₃, (Except.ok.inj hq).symm⟩
  · rintro ⟨p₁, p₂, state, h₁, h₂, h₃, rfl⟩
    exact ⟨p₁, h₁, p₂, h₂, state, h₃, rfl⟩

end BottomUp

end Parlance
