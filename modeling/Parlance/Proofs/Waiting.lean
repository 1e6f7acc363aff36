import Parlance.Proofs.Agenda
import Parlance.Proofs.Forest

/-!
# `Proofs.Waiting` — what waits to be added

An item of the agenda stands for trees: that of its next derivation, and those of the results after it, which are put
on the agenda when it is taken out. Whether a rule waits once with all its results or once for each of them makes no
difference to these. A result whose score is minus infinity would be lost; one with an error would stop the search.

## Contents
- **Items.** `Pending.trees` and `Pending.Ready`, and `Search.waiting`, the trees of all items.
- **Putting on.** `Pushed`, what changes about a search, and what `push` and `pushApplication` put on.
-/

namespace Parlance.BestFirst

open Progress

variable {α : Type} [Score α] {task : Task α} {arena b : Arena α} {s s' t : Search α}

/-! ## Items -/

/-- A tree with a score above minus infinity. -/
def Counts (t : DerivationTree α) : Prop := Score.eq t.label.score Score.negInf = false

/-- The trees of results. -/
def resultTrees (task : Task α) (c : Composition α) (items : List (Except SemanticError Candidate)) :
    Multiset (DerivationTree α) :=
  (items.filterMap Except.toOption).map (c.tree task)

theorem resultTrees_cons (c : Composition α) (candidate : Candidate) (items : List (Except SemanticError Candidate)) :
    resultTrees task c (.ok candidate :: items) = c.tree task candidate ::ₘ resultTrees task c items := rfl

/-- **The trees that an item stands for.** -/
def Pending.trees (task : Task α) (arena : Arena α) (item : Pending α) : Multiset (DerivationTree α) :=
  item.next.unfold arena ::ₘ resultTrees task (item.application.over arena) item.rest.items

/-- An item with derivations that are there, and without errors. -/
structure Pending.Ready (arena : Arena α) (item : Pending α) : Prop where
  next : ∀ c ∈ item.next.children, c < arena.size
  children : ∀ c ∈ item.application.children, c < arena.size
  succeeds : ∀ x ∈ item.rest.items, ∃ candidate, x = .ok candidate

/-- The trees of all items of the agenda. -/
def Search.waiting (task : Task α) (s : Search α) : Multiset (DerivationTree α) :=
  s.agenda.contents.bind (Pending.trees task s.progress.arena)

/-- All items of the agenda are ready. -/
def Search.Ready (s : Search α) : Prop := ∀ item ∈ s.agenda.contents, item.Ready s.progress.arena

theorem over_congr (h : arena.bares <+: b.bares) {a : Application} (hc : ∀ c ∈ a.children, c < arena.size) :
    a.over b = a.over arena := by
  unfold Application.over
  rw [List.map_congr_left fun c hm => Arena.steady_unfold arena b h c (hc c hm)]

/-- An item stands for the same trees while the search goes on. -/
theorem Pending.Ready.trees_eq {item : Pending α} (hr : item.Ready arena) (h : arena.bares <+: b.bares) :
    item.trees task b = item.trees task arena := by
  unfold trees Derivation.unfold
  rw [over_congr h hr.children, List.map_congr_left fun c hm => Arena.steady_unfold arena b h c (hr.next c hm)]

omit [Score α] in
theorem Pending.Ready.mono {item : Pending α} (hr : item.Ready arena) (h : arena.size ≤ b.size) : item.Ready b where
  next c hc := Nat.lt_of_lt_of_le (hr.next c hc) h
  children c hc := Nat.lt_of_lt_of_le (hr.children c hc) h
  succeeds := hr.succeeds

theorem coe_trees (herr : task.pruneErrors = false) (c : Composition α) :
    (c.trees task : Multiset (DerivationTree α)) = resultTrees task c (c.results task).items := by
  unfold Composition.trees resultTrees
  rw [List.filter_eq_self.mpr fun candidate _ => by unfold Composition.keeps; rw [herr]; rfl]

/-! ## Putting on -/

/-- **Items that stand for trees were put on the agenda**, and no more was changed than counts. -/
structure Pushed (task : Task α) (trees : Multiset (DerivationTree α)) (s s' : Search α) : Prop where
  arena : s'.progress.arena = s.progress.arena
  cells : s'.progress.chart.cells = s.progress.chart.cells
  length : s'.progress.chart.length = s.progress.chart.length
  beam : s'.progress.chart.beam = s.progress.chart.beam
  isList : s'.agenda.isList = s.agenda.isList
  waiting : s'.waiting task = s.waiting task + trees
  ready : s.Ready → s'.Ready

namespace Pushed

variable {T U : Multiset (DerivationTree α)}

theorem refl (s : Search α) : Pushed task 0 s s :=
  ⟨rfl, rfl, rfl, rfl, rfl, (add_zero _).symm, id⟩

theorem trans (h : Pushed task T s s') (h' : Pushed task U s' t) : Pushed task (T + U) s t where
  arena := h'.arena.trans h.arena
  cells := h'.cells.trans h.cells
  length := h'.length.trans h.length
  beam := h'.beam.trans h.beam
  isList := h'.isList.trans h.isList
  waiting := by rw [h'.waiting, h.waiting, add_assoc]
  ready hr := h'.ready (h.ready hr)

/-- Counting changes nothing about what waits. -/
theorem of_progress (task : Task α) {p : Progress α} (ha : p.arena = s.progress.arena)
    (hc : p.chart.cells = s.progress.chart.cells)
    (hl : p.chart.length = s.progress.chart.length) (hb : p.chart.beam = s.progress.chart.beam) :
    Pushed task 0 s { s with progress := p } where
  arena := ha
  cells := hc
  length := hl
  beam := hb
  isList := rfl
  waiting := by
    unfold Search.waiting
    rw [ha, add_zero]
  ready hr item hi := by
    rw [show ({ s with progress := p } : Search α).progress.arena = s.progress.arena from ha]
    exact hr item hi

end Pushed

theorem contents_enqueue {item : Pending α} (hs : Score.eq item.next.score Score.negInf = false) :
    (enqueue s item).agenda.contents = item ::ₘ s.agenda.contents ∧
      (enqueue s item).agenda.isList = s.agenda.isList ∧ (enqueue s item).progress = s.progress := by
  unfold enqueue
  rw [if_neg (by rw [hs]; exact Bool.false_ne_true)]
  refine ⟨?_, ?_, rfl⟩
  · dsimp only
    split
    · rw [Agenda.contents_sort, Agenda.contents_add]
    · exact Agenda.contents_add _ _ _
  · dsimp only
    split
    · rw [Agenda.isList_sort, Agenda.isList_add]
    · exact Agenda.isList_add _ _ _

/-- An item whose next derivation counts is put on the agenda. -/
theorem pushed_enqueue (item : Pending α) (hs : Score.eq item.next.score Score.negInf = false)
    (hr : item.Ready s.progress.arena) : Pushed task (item.trees task s.progress.arena) s (enqueue s item) := by
  obtain ⟨hcontents, hlist, hprogress⟩ := contents_enqueue (s := s) hs
  refine ⟨by rw [hprogress], by rw [hprogress], by rw [hprogress], by rw [hprogress], hlist, ?_, fun h => ?_⟩
  · unfold Search.waiting
    rw [hcontents, hprogress, Multiset.cons_bind, add_comm]
  · intro other hmem
    rw [hcontents] at hmem
    rw [hprogress]
    rcases Multiset.mem_cons.mp hmem with rfl | hmem
    · exact hr
    · exact h other hmem

/-- **Putting a derivation on the agenda**, with the results after it. -/
theorem pushed_pushDerivation {a : Application} {d : Derivation α} (rest : Stream Candidate)
    (hd : ∀ c ∈ d.children, c < s.progress.arena.size) (ha : ∀ c ∈ a.children, c < s.progress.arena.size)
    (hrest : ∀ x ∈ rest.items, ∃ candidate, x = .ok candidate)
    (hcounts : Counts ((s.progress.rated task d).unfold s.progress.arena)) :
    Pushed task ((s.progress.rated task d).unfold s.progress.arena ::ₘ
      resultTrees task (a.over s.progress.arena) rest.items) s (pushDerivation task s a d rest) := by
  have hfeaturize : (s.progress.featurize task d).2.arena = s.progress.arena ∧
      (s.progress.featurize task d).2.chart.cells = s.progress.chart.cells ∧
      (s.progress.featurize task d).2.chart.length = s.progress.chart.length ∧
      (s.progress.featurize task d).2.chart.beam = s.progress.chart.beam := by
    unfold featurize
    split
    · exact ⟨rfl, rfl, rfl, rfl⟩
    · exact ⟨rfl, rfl, rfl, rfl⟩
  obtain ⟨harena, hcells, hlength, hbeam⟩ := hfeaturize
  -- scoring does not touch the children, so that the item is ready if the derivation is
  obtain ⟨features, score, hrated⟩ := rated_eq task s.progress d
  have hready : Pending.Ready (s.progress.featurize task d).2.arena
      { application := a, next := s.progress.rated task d, rest } := by
    rw [harena]
    exact ⟨by rw [hrated]; exact hd, ha, hrest⟩
  have hpushed := (Pushed.of_progress task harena hcells hlength hbeam).trans
    (pushed_enqueue (s := { s with progress := (s.progress.featurize task d).2 })
      { application := a, next := s.progress.rated task d, rest } hcounts hready)
  rw [zero_add] at hpushed
  unfold Pending.trees at hpushed
  dsimp only at hpushed
  rwa [harena] at hpushed

/-- Putting on the derivation that is made of a result. -/
theorem pushed_make {a : Application} {candidate : Candidate} (rest : Stream Candidate)
    (ha : ∀ c ∈ a.children, c < s.progress.arena.size)
    (hrest : ∀ x ∈ rest.items, ∃ candidate, x = .ok candidate)
    (hcounts : Counts ((a.over s.progress.arena).tree task candidate)) :
    Pushed task ((a.over s.progress.arena).tree task candidate ::ₘ
      resultTrees task (a.over s.progress.arena) rest.items) s
      (pushDerivation task { s with progress := (s.progress.make task a candidate).2 } a
        (s.progress.make task a candidate).1 rest) := by
  have htree : (Progress.rated (s.progress.make task a candidate).2 task (s.progress.make task a candidate).1).unfold
      s.progress.arena = (a.over s.progress.arena).tree task candidate := by
    rw [rated_of_arena (p := s.progress) (q := (s.progress.make task a candidate).2) rfl]
    exact unfold_derive s.progress ⟨a, candidate⟩ s.progress.made
  have hmake : Pushed task 0 s { s with progress := (s.progress.make task a candidate).2 } :=
    .of_progress task rfl rfl rfl rfl
  rw [← htree] at hcounts ⊢
  have hpushed := hmake.trans (pushed_pushDerivation (a := a)
    (s := { s with progress := (s.progress.make task a candidate).2 })
    (d := (s.progress.make task a candidate).1) rest ha ha hrest hcounts)
  rwa [zero_add] at hpushed

/-- Putting on the next result of a rule. -/
theorem exists_pushNext {a : Application} {results : Stream Candidate}
    (ha : ∀ c ∈ a.children, c < s.progress.arena.size) (hok : ∀ x ∈ results.items, ∃ candidate, x = .ok candidate)
    (hcounts : ∀ t ∈ resultTrees task (a.over s.progress.arena) results.items, Counts t) :
    ∃ s', pushNext task s a results = .ok s' ∧
      Pushed task (resultTrees task (a.over s.progress.arena) results.items) s s' := by
  obtain ⟨items, estimate⟩ := results
  cases items with
  | nil => exact ⟨s, rfl, .refl s⟩
  | cons x items =>
    obtain ⟨candidate, rfl⟩ := hok x List.mem_cons_self
    rw [resultTrees_cons] at hcounts
    exact ⟨_, rfl, pushed_make ⟨items, estimate - 1⟩ ha (fun y hy => hok y (List.mem_cons_of_mem _ hy))
      (hcounts _ (Multiset.mem_cons_self _ _))⟩

/-- Putting on each result of a rule by itself. -/
theorem exists_pushEach {a : Application} {items : List (Except SemanticError Candidate)}
    (ha : ∀ c ∈ a.children, c < s.progress.arena.size) (hok : ∀ x ∈ items, ∃ candidate, x = .ok candidate)
    (hcounts : ∀ t ∈ resultTrees task (a.over s.progress.arena) items, Counts t) :
    ∃ s', pushEach task a items s = .ok s' ∧
      Pushed task (resultTrees task (a.over s.progress.arena) items) s s' := by
  induction items generalizing s with
  | nil => exact ⟨s, rfl, .refl s⟩
  | cons x items ih =>
    obtain ⟨candidate, rfl⟩ := hok x List.mem_cons_self
    rw [resultTrees_cons] at hcounts
    have hfirst := pushed_make .empty ha (fun y hy => nomatch hy)
      (hcounts _ (Multiset.mem_cons_self _ _))
    -- the arena is as before, and so are the trees of the results that are left
    have harena := hfirst.arena
    obtain ⟨s', hs', hrest⟩ := ih (s := pushDerivation task
        { s with progress := (s.progress.make task a candidate).2 } a (s.progress.make task a candidate).1 .empty)
      (by rwa [harena]) (fun y hy => hok y (List.mem_cons_of_mem _ hy))
      (by rw [harena]; exact fun t ht => hcounts t (Multiset.mem_cons_of_mem ht))
    refine ⟨s', hs', ?_⟩
    have hall := hfirst.trans hrest
    rw [harena, Multiset.cons_add] at hall
    exact hall

/-- **Putting a rule on the agenda** puts the trees of its results there. -/
theorem exists_push (options : Options α) (task : Task α) {a : Application} (results : Stream Candidate)
    (ha : ∀ c ∈ a.children, c < s.progress.arena.size) (hok : ∀ x ∈ results.items, ∃ candidate, x = .ok candidate)
    (hcounts : ∀ t ∈ resultTrees task (a.over s.progress.arena) results.items, Counts t) :
    ∃ s', push options task s a results = .ok s' ∧
      Pushed task (resultTrees task (a.over s.progress.arena) results.items) s s' := by
  unfold push
  split
  · exact exists_pushEach ha hok hcounts
  · exact exists_pushNext ha hok hcounts

/-- **Applying rules** puts on the agenda what they make. -/
theorem exists_pushAll (options : Options α) (herr : task.pruneErrors = false) {l : List Application}
    (hchildren : ∀ a ∈ l, ∀ c ∈ a.children, c < s.progress.arena.size)
    (hok : ∀ a ∈ l, (a.over s.progress.arena).Succeeds task)
    (hcounts : ∀ a ∈ l, ∀ t ∈ (a.over s.progress.arena).trees task, Counts t) :
    ∃ s', l.foldlM (pushApplication options task) s = .ok s' ∧
      Pushed task (((l.map (·.over s.progress.arena) : List (Composition α)) : Multiset (Composition α)).bind
        fun c => c.trees task) s s' := by
  induction l generalizing s with
  | nil => exact ⟨s, rfl, .refl s⟩
  | cons a l ih =>
    have hresults : (s.progress.results task a).items = ((a.over s.progress.arena).results task).items := by
      rw [results_over]
    have htrees := coe_trees herr (a.over s.progress.arena)
    rw [← hresults] at htrees
    obtain ⟨s₁, h₁, hpushed⟩ := exists_push options task
      (s.progress.results task a) (hchildren a List.mem_cons_self)
      (fun x hx => hok a List.mem_cons_self x (hresults ▸ hx))
      (fun t ht => hcounts a List.mem_cons_self t (Multiset.mem_coe.mp (htrees ▸ ht)))
    have harena := hpushed.arena
    obtain ⟨s', h', hrest⟩ := ih (s := s₁)
      (by rw [harena]; exact fun a hm => hchildren a (List.mem_cons_of_mem _ hm))
      (by rw [harena]; exact fun a hm => hok a (List.mem_cons_of_mem _ hm))
      (by rw [harena]; exact fun a hm => hcounts a (List.mem_cons_of_mem _ hm))
    refine ⟨s', ?_, ?_⟩
    · rw [List.foldlM_cons, bind_eq_ok]
      exact ⟨s₁, h₁, h'⟩
    · have hall := hpushed.trans hrest
      rw [harena, ← htrees] at hall
      rw [List.map_cons, ← Multiset.cons_coe, Multiset.cons_bind]
      exact hall

end Parlance.BestFirst
