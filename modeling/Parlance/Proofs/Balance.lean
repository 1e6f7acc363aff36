import Parlance.Proofs.Harvest
import Parlance.Proofs.Neighbours
import Parlance.Proofs.Waiting

/-!
# `Proofs.Balance` — a search finds everything

In a search that takes the best derivations first, the trees that were found and those that wait are always what comes
of the trees that were found. A step moves one tree from the agenda to the chart and puts on the agenda what comes of
it in addition, whichever item is taken. When nothing waits any more, the trees that were found are what comes of
them, and there is one multiset of trees only that is. Each step finds one tree more, so that the search ends.

## Contents
- **Charts.** `Progress.found` and `Filed`; adding a derivation.
- **Taking out.** `exists_pop`: there is an item for any random number.
- **Balance.** `Goal`, `Prepared` and `Balanced`; `exists_seed`, and `Balanced.exists_step`.
- **Searching.** `Balanced.exists_search`.
-/

namespace Parlance

open Progress

variable {α : Type} [Score α] {task : Task α}

/-! ## Charts -/

/-- Sorting a cell leaves all cells with the derivations that they have. -/
theorem Chart.get_sortCell_perm (chart : Chart α) (arena : Arena α) (first last : Nat) (cat : String) (f l : Nat)
    (c : String) : ((chart.sortCell arena first last cat).get f l c).Perm (chart.get f l c) := by
  unfold sortCell
  by_cases he : f = first ∧ l = last ∧ c = cat
  · obtain ⟨rfl, rfl, rfl⟩ := he
    by_cases hk : c ∈ (chart.cellAt f l).keys
    · rw [get_setCell_self hk]
      exact arena.sort_perm _
    · rw [setCell, contains_eq, if_neg fun hc => hk (Table.contains_iff.mp hc)]
  · rw [get_setCell_of_ne chart he]

namespace Progress

variable {p q : Progress α}

/-- The trees of all derivations. -/
def found (p : Progress α) : Multiset (DerivationTree α) := (Multiset.range p.arena.size).map p.arena.unfold

/-- **The cells of a chart hold the trees that were found.** -/
structure Filed (task : Task α) (p : Progress α) : Prop where
  bounded : p.Bounded
  descending : BottomUp.Descending p
  hasSpan : ∀ first last, first < last → last ≤ task.length → p.chart.HasSpan first last
  cells : ∀ first last cat, first < last → last ≤ task.length →
    (p.treesAt first last cat : Multiset (DerivationTree α)) = p.found.filter fun t => t.isAt first last cat
  length : p.chart.length = task.length
  beam : p.chart.beam = task.beam

/-- Counting changes nothing about the cells. -/
theorem Filed.congr (h : p.Filed task) (ha : q.arena = p.arena) (hc : q.chart.cells = p.chart.cells)
    (hl : q.chart.length = p.chart.length) (hb : q.chart.beam = p.chart.beam) : q.Filed task := by
  have hget : ∀ f l c, q.chart.get f l c = p.chart.get f l c := fun f l c => by
    unfold Chart.get Chart.cell?
    rw [hc]
  refine ⟨fun f l c i hi => ?_, ?_, fun f l hf hl => ?_, fun f l c hf hl => ?_, hl.trans h.length, hb.trans h.beam⟩
  · rw [ha]
    exact h.bounded f l c i (hget f l c ▸ hi)
  · unfold BottomUp.Descending
    rw [ha]
    exact h.descending
  · unfold Chart.HasSpan Chart.cell?
    rw [hc]
    exact h.hasSpan f l hf hl
  · have hcell := h.cells f l c hf hl
    unfold treesAt cellOf found at hcell ⊢
    rwa [hget, ha]

/-- Sorting a cell changes nothing about what the cells hold. -/
theorem Filed.sortCell (h : p.Filed task) (first last : Nat) (cat : String) :
    Filed task { p with chart := p.chart.sortCell p.arena first last cat } where
  bounded f l c i hi := h.bounded f l c i ((Chart.get_sortCell_perm p.chart p.arena first last cat f l c).subset hi)
  descending := h.descending
  hasSpan f l hf hl := Chart.hasSpan_setCell.mpr (h.hasSpan f l hf hl)
  cells f l c hf hl := by
    have hperm := (Chart.get_sortCell_perm p.chart p.arena first last cat f l c).map p.arena.unfold
    exact (Multiset.coe_eq_coe.mpr hperm).trans (h.cells f l c hf hl)
  length := (Chart.length_setCell _ _ _).trans h.length
  beam := (Chart.beam_setCell _ _ _).trans h.beam

theorem Filed.insert {d : Derivation α} (h : p.Filed task) (hf : d.first < d.last) (hl : d.last ≤ task.length)
    (hc : ∀ c ∈ d.children, c < p.arena.size) :
    Grown p [d] (p.insert d) ∧ (p.insert d).found = d.unfold p.arena ::ₘ p.found ∧ (p.insert d).Filed task := by
  have hg := grown_insert p d (h.hasSpan _ _ hf hl)
  have hchildren : ∀ e ∈ [d], ∀ c ∈ e.children, c < p.arena.size := fun e he => by
    rw [List.mem_singleton.mp he]
    exact hc
  have hnew : (p.insert d).arena.unfold p.arena.size = d.unfold p.arena :=
    hg.unfold (k := 0) hchildren rfl
  have hfound : (p.insert d).found = d.unfold p.arena ::ₘ p.found := by
    unfold found
    rw [hg.size, List.length_singleton, Multiset.range_succ, Multiset.map_cons, hnew]
    congr 1
    exact Multiset.map_congr rfl fun i hi =>
      Arena.steady_unfold _ _ hg.isPrefix i (Multiset.mem_range.mp hi)
  refine ⟨hg, hfound, hg.bounded h.bounded, h.descending.grown hg hchildren, fun f l hf hl =>
    (hg.hasSpan f l).mpr (h.hasSpan f l hf hl), fun f l c hf hl => ?_, hg.length.trans h.length,
    hg.beam.trans h.beam⟩
  rw [hg.treesAt h.bounded hchildren, ← Multiset.coe_add, h.cells f l c hf hl, hfound, Multiset.filter_cons,
    add_comm]
  congr 1
  rw [List.map_singleton, List.filter_singleton]
  cases (d.unfold p.arena).isAt f l c <;> rfl

/-- How many derivations a cell has. -/
theorem Filed.length_get (h : p.Filed task) {first last : Nat} (hf : first < last) (hl : last ≤ task.length)
    (cat : String) :
    (p.chart.get first last cat).length = (p.found.filter fun t => t.isAt first last cat).card := by
  rw [← h.cells first last cat hf hl, Multiset.coe_card]
  exact (List.length_map _).symm

/-- **Adding a derivation to a cell with room for it.** -/
theorem Filed.exists_add {d : Derivation α} (h : p.Filed task) (hf : d.first < d.last) (hl : d.last ≤ task.length)
    (hc : ∀ c ∈ d.children, c < p.arena.size)
    (hroom : (p.chart.get d.first d.last d.cat).length < task.beam.size) :
    ∃ q, p.addToBoundedChart d = (some p.arena.size, q) ∧ q.Filed task ∧ p.arena.bares <+: q.arena.bares ∧
      q.arena.size = p.arena.size + 1 ∧ q.arena.unfold p.arena.size = d.unfold p.arena ∧
      q.found = d.unfold p.arena ::ₘ p.found := by
  have hcount : p.count.Filed task := h.congr rfl rfl rfl rfl
  obtain ⟨hg, hfound, hfiled⟩ := hcount.insert hf hl hc
  refine ⟨_, ?_, hfiled.sortCell d.first d.last d.cat, hg.isPrefix, hg.size, hg.unfold (k := 0) (fun e he => ?_) rfl,
    hfound⟩
  · have hnot : ¬p.count.chart.beam.size ≤ (p.count.chart.get d.first d.last d.cat).length := by
      rw [hcount.beam]
      exact Nat.not_le.mpr hroom
    unfold addToBoundedChart
    dsimp only
    rw [if_neg hnot]
    rfl
  · rw [List.mem_singleton.mp he]
    exact hc

end Progress

/-! ## Taking out -/

namespace BestFirst

variable {options : Options α} {s s' : Search α}

/-- A number falls among probabilities, wherever there are any. -/
theorem choose_lt (draw p : α) (i : Nat) (l : List α) : choose draw i (p :: l) < i + l.length + 1 := by
  induction l generalizing draw p i with
  | nil =>
    unfold choose
    split
    · exact Nat.lt_succ_self i
    · exact Nat.lt_succ_self i
  | cons next l ih =>
    unfold choose
    split
    · exact Nat.lt_succ_of_le (Nat.le_add_right i _)
    · refine Nat.lt_of_lt_of_eq (ih _ next (i + 1)) ?_
      rw [List.length_cons]
      omega

theorem length_probabilities (scores : List α) (temperature : α) :
    (Score.probabilities scores temperature).length = scores.length := by
  unfold Score.probabilities
  dsimp only
  split
  · exact List.length_map _
  · rw [List.length_map, List.length_map]

/-- **An agenda that is not empty gives an item away**, by whichever number. -/
theorem exists_pop (hlist : s.agenda.isList = options.sample.isSome) (hsize : s.agenda.size ≠ 0) :
    ∃ item s', pop? options s = some (item, s') ∧ s'.progress = s.progress ∧
      s.agenda.contents = item ::ₘ s'.agenda.contents ∧ s'.agenda.isList = s.agenda.isList := by
  unfold pop?
  cases hdraws : options.sample with
  | none =>
    rw [hdraws] at hlist
    obtain ⟨item, rest, hpop, hcontents, hrest⟩ := Agenda.exists_pop hlist hsize
    refine ⟨item, { s with agenda := rest }, ?_, rfl, hcontents, hrest.trans hlist.symm⟩
    dsimp only
    rw [hpop]
    rfl
  | some draws =>
    rw [hdraws] at hlist
    -- every place shows an item, so that there is a probability for each
    have hscores : ∃ first rest, (List.range s.agenda.size).filterMap (fun i =>
        (s.agenda.get? i).map fun item => item.next.score) = first :: rest ∧ rest.length + 1 = s.agenda.size := by
      have hlength : ((List.range s.agenda.size).filterMap fun i =>
          (s.agenda.get? i).map fun item => item.next.score).length = s.agenda.size := by
        refine (List.filterMap_length_eq_length.mpr fun i hi => ?_).trans List.length_range
        obtain ⟨item, hitem⟩ := Agenda.exists_get hlist (List.mem_range.mp hi)
        rw [hitem]
        rfl
      obtain ⟨first, rest, he⟩ := List.exists_cons_of_ne_nil (List.ne_nil_of_length_pos
        (Nat.lt_of_lt_of_eq (Nat.pos_of_ne_zero hsize) hlength.symm))
      exact ⟨first, rest, he, by rw [he] at hlength; exact hlength⟩
    obtain ⟨first, rest, hscores, hlength⟩ := hscores
    obtain ⟨p, l, hprobabilities⟩ : ∃ p l, Score.probabilities (first :: rest) Score.one = p :: l := by
      refine List.exists_cons_of_ne_nil (List.ne_nil_of_length_pos ?_)
      rw [length_probabilities]
      exact Nat.succ_pos _
    have hplace : choose (draws s.drawn) 0 (p :: l) < s.agenda.size := by
      have hl := congrArg List.length hprobabilities
      rw [length_probabilities, List.length_cons, List.length_cons] at hl
      have := choose_lt (draws s.drawn) p 0 l
      omega
    obtain ⟨item, agenda, hremove, hcontents, hrest⟩ := Agenda.exists_remove hlist hplace
    refine ⟨item, { s with agenda, drawn := s.drawn + 1 }, ?_, rfl, hcontents, hrest.trans hlist.symm⟩
    dsimp only
    rw [hscores, hprobabilities, hremove]
    rfl

/-! ## Balance -/

/-- **What is to be found**: trees that are what comes of them, that all count, and that fit into the beam. Nothing
that can be put together from them fails. -/
structure Goal (task : Task α) (rules : List Rule) (goal : Multiset (DerivationTree α)) : Prop where
  fixed : goal = consequences task rules goal
  succeeds : ∀ c ∈ compositions task rules goal, c.Succeeds task
  counts : ∀ t ∈ goal, Counts t
  fits : ∀ first last cat, first < last → last ≤ task.length →
    (goal.filter fun t => t.isAt first last cat).card < task.beam.size

/-- A task without limits, and the rules with their index. -/
structure Prepared (task : Task α) (rules : List Rule) (index : SiblingIndex) : Prop where
  pruneErrors : task.pruneErrors = false
  limit : task.limit = none
  indexes : index.Indexes rules
  length : ∀ r ∈ rules, r.rhs.length ≤ 2
  cats : ∀ r ∈ rules, isCat r.lhs = true
  literal : BottomUp.LiteralTokens task rules
  symbols : ∀ r ∈ rules, ∀ s ∈ r.rhs, ' ' ∉ s.toList
  tokens : ∀ s ∈ task.ex.info.tokens, ' ' ∉ s.toList ∧ s ≠ ""

/-- **The balance of a search**: what was found and what waits is what comes of what was found. -/
structure Balanced (options : Options α) (task : Task α) (rules : List Rule)
    (goal : Multiset (DerivationTree α)) (s : Search α) : Prop where
  filed : s.progress.Filed task
  ready : s.Ready
  isList : s.agenda.isList = options.sample.isSome
  found_le : s.progress.found ≤ goal
  balance : s.progress.found + s.waiting task = consequences task rules s.progress.found

variable {rules : List Rule} {index : SiblingIndex} {F goal : Multiset (DerivationTree α)}

/-- What can be put together from trees of the goal leads to trees of the goal. -/
theorem Goal.bind_le (hg : Goal task rules goal) (hF : F ≤ goal) :
    (compositions task rules F).bind (fun c => (c.trees task : Multiset (DerivationTree α))) ≤ goal := by
  have hle : consequences task rules F ≤ goal := by
    rw [hg.fixed]
    exact consequences_le_consequences hF
  exact (Multiset.le_add_left _ _).trans hle

/-- **Rules whose compositions belong to the goal can be put on the agenda.** -/
theorem Goal.exists_pushAll (hg : Goal task rules goal) (hp : Prepared task rules index) (options : Options α)
    (hF : F ≤ goal) {l : List Application} (hchildren : ∀ a ∈ l, ∀ c ∈ a.children, c < s.progress.arena.size)
    (hl : ((l.map (·.over s.progress.arena) : List (Composition α)) : Multiset (Composition α)) ≤
      compositions task rules F) :
    ∃ s', l.foldlM (pushApplication options task) s = .ok s' ∧
      Pushed task (((l.map (·.over s.progress.arena) : List (Composition α)) : Multiset (Composition α)).bind
        fun c => c.trees task) s s' := by
  have hmem : ∀ a ∈ l, a.over s.progress.arena ∈ compositions task rules F := fun a ha =>
    Multiset.mem_of_le hl (Multiset.mem_coe.mpr (List.mem_map_of_mem ha))
  refine BestFirst.exists_pushAll options hp.pruneErrors hchildren (fun a ha => ?_) fun a ha t ht => ?_
  · exact hg.succeeds _ (Multiset.mem_of_le (compositions_le_compositions hF) (hmem a ha))
  · exact hg.counts t (Multiset.mem_of_le (hg.bind_le hF)
      (Multiset.mem_bind.mpr ⟨_, hmem a ha, Multiset.mem_coe.mpr ht⟩))

/-- What was found and what waits is part of the goal. -/
theorem Balanced.le_goal (hg : Goal task rules goal) (hs : Balanced options task rules goal s) :
    s.progress.found + s.waiting task ≤ goal := by
  rw [hs.balance, hg.fixed]
  exact consequences_le_consequences hs.found_le

/-! ### The start -/

theorem filed_start (task : Task α) : (startWithTerminals task).Filed task := by
  have hsound := sound_start task
  refine ⟨hsound.bounded, (fun i hi => nomatch hi), fun f l hf hl => hsound.hasSpan f l hf hl, fun f l c hf hl => ?_,
    hsound.length, hsound.beam⟩
  have hget : (startWithTerminals task).chart.get f l c = [] :=
    List.eq_nil_iff_forall_not_mem.mpr fun i hi => nomatch hsound.bounded f l c i hi
  unfold treesAt cellOf
  rw [hget]
  rfl

/-- The tokens and phrases are put on the agenda. -/
theorem pushed_terminals (options : Options α) (task : Task α) (hcounts : ∀ t ∈ seedTrees task, Counts t)
    (a : Application) (ha : a.children = []) :
    Pushed task (seedTrees task) (start options task)
      ((terminalDerivations task).foldl (fun s d => pushDerivation task s a d .empty) (start options task)) := by
  have hseed : ∀ d ∈ terminalDerivations task,
      (((Progress.start task).rated task d).unfold .empty) ∈ seedTrees task := fun d hd =>
    Multiset.mem_coe.mpr (List.mem_map_of_mem (List.mem_map_of_mem hd))
  have hfold := foldl_induct
    (P := fun pre s => Pushed task
      ((pre.map fun d => ((Progress.start task).rated task d).unfold .empty : List (DerivationTree α)) :
        Multiset (DerivationTree α)) (start options task) s)
    (terminalDerivations task) (start options task) (f := fun s d => pushDerivation task s a d .empty)
    (.refl _) (by
      intro pre d post s hl hs
      have hd : d ∈ terminalDerivations task := hl ▸ by simp
      have harena : s.progress.arena = .empty := hs.arena
      have hrated : s.progress.rated task d = (Progress.start task).rated task d := rated_of_arena harena d
      have htree := hseed d hd
      rw [← hrated, ← harena] at htree
      have hpushed := hs.trans (pushed_pushDerivation (a := a) (d := d) .empty
        (by rw [children_of_mem_terminals hd]; exact fun c hc => nomatch hc)
        (by rw [ha]; exact fun c hc => nomatch hc) (fun x hx => nomatch hx) (hcounts _ htree))
      rw [hrated, harena] at hpushed
      rw [List.map_append, ← Multiset.coe_add]
      exact hpushed)
  unfold seedTrees ratedTerminals
  rw [List.map_map]
  exact hfold

omit [Score α] in
theorem children_of_mem_applications {rules : List Rule} {first last : Nat} {children : List (List Nat)}
    {a : Application} (h : a ∈ applications task rules first last children) : a.children ∈ children := by
  obtain ⟨r, -, ha⟩ := List.mem_flatMap.mp h
  obtain ⟨w, hw, rfl⟩ := List.mem_map.mp ha
  exact hw

/-- A new derivation is combined with derivations that are there. -/
theorem lt_of_mem_combinations {p : Progress α} (hb : p.Bounded) {i : Nat} (hi : i < p.arena.size) {a : Application}
    (h : a ∈ combinations index task p i) : ∀ c ∈ a.children, c < p.arena.size := by
  have hall : ∀ rules f l (children : List (List Nat)), (∀ w ∈ children, ∀ c ∈ w, c < p.arena.size) →
      ∀ a ∈ applications task rules f l children, ∀ c ∈ a.children, c < p.arena.size :=
    fun _ _ _ _ hw a ha => hw _ (children_of_mem_applications ha)
  have hself : ∀ w ∈ [[i]], ∀ c ∈ w, c < p.arena.size := by
    simpa only [List.mem_singleton, forall_eq] using hi
  have hpair : ∀ f l cat, ∀ x ∈ p.chart.get f l cat, ∀ c ∈ [i, x], c < p.arena.size := fun f l cat x hx => by
    simp only [List.forall_mem_cons, List.not_mem_nil, false_implies, implies_true, and_true]
    exact ⟨hi, hb f l cat x hx⟩
  unfold combinations at h
  rw [rightward_eq, leftward_eq] at h
  simp only [List.mem_append, List.mem_flatMap] at h
  rcases h with ((⟨k, -, e, -, h⟩ | h) | ⟨k, -, e, -, h⟩ | h) | h
  · refine hall _ _ _ _ (fun w hw => ?_) a h
    obtain ⟨x, hx, rfl⟩ := List.mem_map.mp hw
    exact hpair _ _ _ x hx
  · split at h
    · exact hall _ _ _ _ hself a h
    · cases h
  · refine hall _ _ _ _ (fun w hw => ?_) a h
    obtain ⟨x, hx, rfl⟩ := List.mem_map.mp hw
    exact fun c hc => hpair _ _ _ x hx c ((List.Perm.swap i x []).subset hc)
  · split at h
    · exact hall _ _ _ _ hself a h
    · cases h
  · exact hall _ _ _ _ hself a h

/-- **The search begins in balance.** -/
theorem exists_seed (hg : Goal task rules goal) (hp : Prepared task rules index) (options : Options α) :
    ∃ s, seed options index task = .ok s ∧ Balanced options task rules goal s := by
  have hseeds : ∀ t ∈ seedTrees task, Counts t := fun t ht => by
    refine hg.counts t ?_
    rw [hg.fixed]
    exact Multiset.mem_add.mpr (Or.inl ht)
  have hterminals := pushed_terminals options task hseeds { rule := .null, first := 0, last := 0, children := [] } rfl
  generalize hs₁ : (terminalDerivations task).foldl (fun s d => pushDerivation task s
    { rule := .null, first := 0, last := 0, children := [] } d .empty) (start options task) = s₁ at hterminals
  have hliteral := map_over_literalApplications s₁.progress.arena hp.indexes hp.symbols hp.tokens
  obtain ⟨s, hs, hpushed⟩ := hg.exists_pushAll hp options (Multiset.zero_le goal) (s := s₁)
    (l := literalApplications index task) (fun a ha c hc => by
      obtain ⟨span, -, ha⟩ := List.mem_flatMap.mp ha
      rw [List.mem_singleton.mp (children_of_mem_applications ha)] at hc
      cases hc) (le_of_eq hliteral)
  rw [hliteral] at hpushed
  have hall := hterminals.trans hpushed
  have hfound : s.progress.found = 0 := by
    unfold found
    rw [hall.arena]
    rfl
  have hstart : (start options task).agenda.contents = 0 := by
    unfold start
    split
    · rfl
    · rfl
  refine ⟨s, ?_, (filed_start task).congr hall.arena hall.cells hall.length hall.beam, hall.ready fun item hi => ?_,
    hall.isList.trans ?_, ?_, ?_⟩
  · unfold seed
    dsimp only
    rw [hs₁]
    exact hs
  · rw [hstart] at hi
    cases hi
  · unfold start
    cases options.sample <;> rfl
  · rw [hfound]
    exact Multiset.zero_le goal
  · rw [hall.waiting, hfound, zero_add]
    unfold Search.waiting
    rw [hstart, Multiset.zero_bind, zero_add]
    rfl

/-! ### Steps -/

/-- What waits is what the item stands for that is taken out, and what the others stand for. -/
theorem waiting_eq (task : Task α) {item : Pending α} {s₁ : Search α} (hprogress : s₁.progress = s.progress)
    (hcontents : s.agenda.contents = item ::ₘ s₁.agenda.contents) :
    s.waiting task = item.trees task s.progress.arena + s₁.waiting task := by
  unfold Search.waiting
  rw [hcontents, Multiset.cons_bind, hprogress]

/-- The next tree of an item is part of the goal. -/
theorem Balanced.cons_le_goal (hg : Goal task rules goal) (hs : Balanced options task rules goal s)
    {item : Pending α} (hi : item ∈ s.agenda.contents) :
    item.next.unfold s.progress.arena ::ₘ s.progress.found ≤ goal := by
  have hnext : {item.next.unfold s.progress.arena} ≤ s.waiting task := by
    refine Multiset.singleton_le.mpr (Multiset.mem_bind.mpr ⟨item, hi, ?_⟩)
    exact Multiset.mem_cons_self _ _
  refine le_trans ?_ (hs.le_goal hg)
  rw [← Multiset.singleton_add, add_comm]
  exact add_le_add (le_refl _) hnext

theorem Goal.liesIn (hg : Goal task rules goal) (hp : Prepared task rules index) {t : DerivationTree α}
    (ht : t ∈ goal) : t.LiesIn task.length := by
  rw [hg.fixed] at ht
  exact liesIn_of_mem_consequences hp.cats ht

/-- **There is room for the next derivation of an item.** -/
theorem Balanced.exists_add (hg : Goal task rules goal) (hp : Prepared task rules index)
    (hs : Balanced options task rules goal s) {item : Pending α} (hi : item ∈ s.agenda.contents) :
    ∃ q, s.progress.addToBoundedChart item.next = (some s.progress.arena.size, q) ∧ q.Filed task ∧
      s.progress.arena.bares <+: q.arena.bares ∧ q.arena.size = s.progress.arena.size + 1 ∧
      q.arena.unfold s.progress.arena.size = item.next.unfold s.progress.arena ∧
      q.found = item.next.unfold s.progress.arena ::ₘ s.progress.found := by
  have hmore := hs.cons_le_goal hg hi
  have hlies := hg.liesIn hp (Multiset.mem_of_le hmore (Multiset.mem_cons_self _ _))
  have hf : item.next.first < item.next.last := hlies.1
  have hl : item.next.last ≤ task.length := hlies.2.1
  refine hs.filed.exists_add hf hl (hs.ready item hi).next ?_
  -- the derivation itself is one of those that the cell has room for
  let inCell (t : DerivationTree α) : Prop := t.isAt item.next.first item.next.last item.next.cat = true
  have hat : inCell (item.next.unfold s.progress.arena) := DerivationTree.isAt_iff.mpr ⟨rfl, rfl, rfl⟩
  have hcard := Multiset.card_le_card (Multiset.filter_le_filter inCell hmore)
  rw [Multiset.filter_cons_of_pos (p := inCell) _ hat, Multiset.card_cons] at hcard
  rw [hs.filed.length_get hf hl]
  exact Nat.lt_of_lt_of_le hcard (Nat.le_of_lt (hg.fits _ _ item.next.cat hf hl))

/-- What the newest tree is combined with. -/
theorem map_over_newest (hg : Goal task rules goal) (hp : Prepared task rules index) {p q : Progress α}
    {t : DerivationTree α} (hfiled : q.Filed task) (hnew : q.arena.unfold p.arena.size = t)
    (hfound : q.found = t ::ₘ p.found) (hmore : t ::ₘ p.found ≤ goal) :
    (((combinations index task q p.arena.size).map (·.over q.arena) : List (Composition α)) :
      Multiset (Composition α)) = (rules : Multiset Rule).bind (added task p.found t) := by
  have hlies := hg.liesIn hp (Multiset.mem_of_le hmore (Multiset.mem_cons_self t _))
  have hcat : ∀ u ∈ q.found, isCat u.label.cat = true := fun u hu =>
    (hg.liesIn hp (Multiset.mem_of_le hmore (hfound ▸ hu))).2.2
  rw [map_over_combinations hp.indexes hp.literal hcat hfiled.cells (by rw [hnew]; exact hlies), hnew, hfound]
  exact Multiset.bind_congr fun r _ => added_cons_self hlies.2.2 hlies.1 r

/-- **A step keeps the balance**, and finds one tree more. -/
theorem Balanced.exists_step (hg : Goal task rules goal) (hp : Prepared task rules index)
    (hs : Balanced options task rules goal s) {item : Pending α} {s₁ : Search α}
    (hprogress : s₁.progress = s.progress) (hcontents : s.agenda.contents = item ::ₘ s₁.agenda.contents)
    (hlist : s₁.agenda.isList = s.agenda.isList) :
    ∃ s', step options index task item s₁ = .ok s' ∧ Balanced options task rules goal s' ∧
      s'.progress.arena.size = s.progress.arena.size + 1 := by
  have hi : item ∈ s.agenda.contents := hcontents ▸ Multiset.mem_cons_self _ _
  have hready := hs.ready item hi
  have hmore := hs.cons_le_goal hg hi
  have hwaiting := waiting_eq task hprogress hcontents
  obtain ⟨q, hadd, hfiled, hbares, hsize, hnew, hfound⟩ := hs.exists_add hg hp hi
  have hcombined := map_over_newest hg hp hfiled hnew hfound hmore
  have hlies := hg.liesIn hp (Multiset.mem_of_le hmore (Multiset.mem_cons_self _ _))
  have hcompositions := compositions_cons (F := s.progress.found) hlies.2.2 hlies.1 hlies.2.1 hp.length
  -- the other items stand for what they stood for
  obtain ⟨s₂, hs₂⟩ : ∃ s₂, s₂ = { s₁ with progress := q } := ⟨_, rfl⟩
  have hagenda : s₂.agenda = s₁.agenda := by rw [hs₂]
  have hstep : s₂.progress = q := by rw [hs₂]
  subst hstep
  have hothers : ∀ other ∈ s₂.agenda.contents, other.Ready s.progress.arena := fun other ho =>
    hs.ready other (hcontents ▸ Multiset.mem_cons_of_mem (hagenda ▸ ho))
  have hready₂ : s₂.Ready := fun other ho => (hothers other ho).mono (by omega)
  have hwaiting₂ : s₂.waiting task = s₁.waiting task := by
    unfold Search.waiting
    rw [hprogress, ← hagenda]
    exact Multiset.bind_congr fun other ho => (hothers other ho).trees_eq hbares
  -- the rules that combine the new tree with others go on the agenda
  obtain ⟨s₃, hcombine, hpushed⟩ := hg.exists_pushAll hp options hmore (s := s₂)
    (l := combinations index task s₂.progress s.progress.arena.size)
    (fun a ha => lt_of_mem_combinations hfiled.bounded (by omega) ha)
    (by
      rw [hcombined, hcompositions]
      exact Multiset.le_add_left _ _)
  rw [hcombined] at hpushed
  -- the item waits again with what comes after it
  have hover : item.application.over s₃.progress.arena = item.application.over s.progress.arena := by
    rw [hpushed.arena]
    exact over_congr hbares hready.children
  obtain ⟨s₄, hpush, hpushed'⟩ := exists_push options task (s := s₃) (a := item.application) item.rest
    (fun c hc => by
      rw [hpushed.arena]
      exact Nat.lt_of_lt_of_le (hready.children c hc) (by omega))
    hready.succeeds
    (fun t ht => hg.counts t (Multiset.mem_of_le (hs.le_goal hg) (by
      rw [hover] at ht
      rw [hwaiting]
      exact Multiset.mem_add.mpr (Or.inr (Multiset.mem_add.mpr (Or.inl (Multiset.mem_cons_of_mem ht)))))))
  rw [hover] at hpushed'
  have hall := hpushed.trans hpushed'
  have hfound₄ : s₄.progress.found = item.next.unfold s.progress.arena ::ₘ s.progress.found := by
    rw [← hfound]
    unfold found
    rw [hall.arena]
  refine ⟨s₄, ?_, ⟨hfiled.congr hall.arena hall.cells hall.length hall.beam, hall.ready hready₂,
    hall.isList.trans (hagenda ▸ hlist.trans hs.isList), hfound₄ ▸ hmore, ?_⟩, by rw [hall.arena, hsize]⟩
  · unfold step
    rw [hprogress, hadd]
    dsimp only
    rw [← hs₂, hcombine]
    exact hpush
  · -- the tree has moved from what waits to what was found
    have hbalance := hs.balance
    rw [hwaiting] at hbalance
    unfold Pending.trees consequences at hbalance
    unfold consequences
    rw [hfound₄, hall.waiting, hwaiting₂, hcompositions, Multiset.add_bind, ← add_assoc (seedTrees task),
      ← hbalance]
    simp only [← Multiset.singleton_add]
    ac_rfl

/-! ## Searching -/

/-- **A search finds the goal**, if it is given as many steps as there are trees left to be found and one more. -/
theorem Balanced.exists_search (hg : Goal task rules goal) (hp : Prepared task rules index)
    (hs : Balanced options task rules goal s) (fuel : Nat) (hfuel : goal.card < s.progress.arena.size + fuel) :
    ∃ s', search options index task fuel s = .ok s' ∧ s'.progress.Filed task ∧ s'.progress.found = goal := by
  -- each step finds one tree more of the goal, which bounds their number
  induction fuel generalizing s with
  | zero =>
    have hle := Multiset.card_le_card hs.found_le
    unfold found at hle
    rw [Multiset.card_map, Multiset.card_range] at hle
    omega
  | succ fuel ih =>
    unfold search
    by_cases hsize : s.agenda.size = 0
    · -- nothing waits: what was found is what comes of it
      have hcontents : s.agenda.contents = 0 := by
        rw [← Multiset.card_eq_zero, Agenda.card_contents, hsize]
      have hbalance := hs.balance
      unfold Search.waiting at hbalance
      rw [hcontents, Multiset.zero_bind, add_zero] at hbalance
      refine ⟨s, ?_, hs.filed, eq_of_eq_consequences hbalance hg.fixed⟩
      unfold continues
      rw [hsize]
      rfl
    · by_cases hlength : task.length = 0
      · -- no text, no trees
        have hnone : goal = 0 := Multiset.eq_zero_of_forall_notMem fun t ht => by
          rw [hg.fixed] at ht
          obtain ⟨hf, hl, -⟩ := liesIn_of_mem_consequences hp.cats ht
          omega
        refine ⟨s, ?_, hs.filed, ?_⟩
        · unfold continues
          rw [hlength]
          simp
        · rw [hnone, ← Multiset.le_zero, ← hnone]
          exact hs.found_le
      · -- the cell of the root is a cell like any other, and is not full
        have hroots : s.progress.roots.length < s.progress.chart.beam.size := by
          unfold roots
          rw [hs.filed.length, hs.filed.beam, hs.filed.length_get (Nat.pos_of_ne_zero hlength) (Nat.le_refl _)]
          exact Nat.lt_of_le_of_lt (Multiset.card_le_card (Multiset.filter_le_filter _ hs.found_le))
            (hg.fits 0 task.length rootCat (Nat.pos_of_ne_zero hlength) (Nat.le_refl _))
        have hcontinues : continues task s = true := by
          unfold continues
          simp [hsize, hlength, hroots]
        obtain ⟨item, s₁, hpop, hprogress, hcontents, hlist⟩ := exists_pop hs.isList hsize
        obtain ⟨s₂, hstep, hs₂, hsize₂⟩ := hs.exists_step hg hp hprogress hcontents hlist
        obtain ⟨s', hsearch, hdone⟩ := ih hs₂ (by omega)
        refine ⟨s', ?_, hdone⟩
        rw [hcontinues, hpop]
        show (do
          let s ← step options index task item s₁
          if s.progress.limitReached task then return s else search options index task fuel s) = _
        rw [hstep]
        show (if s₂.progress.limitReached task then _ else _) = _
        rw [limitReached_of_none _ hp.limit]
        exact hsearch

end BestFirst

end Parlance
