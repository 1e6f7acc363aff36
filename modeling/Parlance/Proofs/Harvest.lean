import Parlance.Proofs.Forest
import Parlance.Proofs.Run

/-!
# `Proofs.Harvest` — the trees that a bottom-up parse finds

If a bottom-up parse drops nothing, then the trees in its chart are what comes of them, and whatever can be put
together from them was put together without an error.

## Contents
- **Success.** `Clear`, and `clear_run`: no way to apply a rule fails in the finished chart.
- **Cells as trees.** `treesAt_eq`.
- **The forest.** `Harvest`, and `exists_harvest`.
-/

namespace Parlance

open Progress

variable {α : Type} [Score α] {task : Task α} {rules unaries : List Rule} {first last : Nat} {p q : Progress α}

/-! ## Success -/

namespace Progress

/-- **No way to apply a rule over a span fails.** -/
def Clear (p : Progress α) (task : Task α) (rules : List Rule) (first last : Nat) : Prop :=
  ∀ r ∈ rules, task.canBuild r first last = true → ∀ w ∈ ways task.isLiteral p.parts last r.rhs first,
    p.Succeeds task { rule := r, first, last, children := w }

theorem succeeds_congr {a : Application} (h : p.arena.bares <+: q.arena.bares)
    (hc : ∀ c ∈ a.children, c < p.arena.size) : q.Succeeds task a ↔ p.Succeeds task a := by
  unfold Succeeds
  rw [results_congr h hc]

end Progress

namespace BottomUp

/-- What the unary rules have applied so far did not fail. -/
structure UnariesClear (task : Task α) (p : Progress α) (first last : Nat) (pre : List Rule) (q : Progress α) :
    Prop where
  sound : q.Sound task
  later : Later first last p q
  succeeds : ∀ r ∈ pre, task.canBuild r first last = true → ∀ d ∈ q.chart.get first last r.target,
    q.Succeeds task { rule := r, first, last, children := [d] }

/-- What succeeds for a cell goes on to succeed if nothing is added to the cell. -/
theorem succeeds_of_subset {r : Rule} (hp : p.Bounded) (hlat : p.arena.bares <+: q.arena.bares)
    (hsub : ∀ d ∈ q.chart.get first last r.target, d ∈ p.chart.get first last r.target)
    (h : ∀ d ∈ p.chart.get first last r.target,
      p.Succeeds task { rule := r, first, last, children := [d] }) :
    ∀ d ∈ q.chart.get first last r.target, q.Succeeds task { rule := r, first, last, children := [d] } := by
  intro d hd
  have hmem := hsub d hd
  refine (succeeds_congr hlat fun c hc => ?_).mpr (h d hmem)
  rw [List.mem_singleton.mp hc]
  exact hp first last r.target d hmem

theorem UnariesClear.step {pre : List Rule} {rule : Rule} {pruned : List String}
    {state : Progress α × List String} (hlim : task.limit = none) (hq : task.beam.Quiet)
    (hcat : ∀ r ∈ rules, isCat r.lhs = true) (hf : first < last) (hl : last ≤ task.length) (hr : rule ∈ rules)
    (hbefore : ∀ a ∈ pre, rule.lhs ≠ a.target) (hself : rule.lhs ≠ rule.target)
    (hu : UnariesClear task p first last pre q)
    (h : applyUnary task first last (q, pruned) rule = .ok state) :
    UnariesClear task p first last (pre ++ [rule]) state.1 := by
  obtain ⟨hs, hlat⟩ := step_applyUnary hlim hq hcat hu.sound hf hl hr h
  refine ⟨hs, hu.later.trans hlat, ?_⟩
  rw [applyUnary_eq_ok_iff] at h
  split at h
  · rename_i hb
    have hquiet : q.chart.beam.Quiet := hu.sound.beam ▸ hq
    have hs' := sound_pruneOnce hq hu.sound first last pruned rule.target
    have hsub : ∀ c, ∀ d ∈ (pruneOnce first last (q, pruned) rule.target).1.chart.get first last c,
        d ∈ q.chart.get first last c := fun c =>
      (get_pruneOnce_subperm hquiet first last pruned rule.target first last c).subset
    generalize (pruneOnce first last (q, pruned) rule.target).1 = r at h hs' hsub
    obtain ⟨happ, -⟩ := h
    have hfrom := fun a (ha : a ∈ (r.chart.get first last rule.target).map
      fun d => ({ rule, first, last, children := [d] } : Application)) => fromChart_unary hr hb ha
    obtain ⟨-, hlat'⟩ := step_applyAll hlim hcat hs' hf hl hfrom happ
    have hget : ∀ c, rule.lhs ≠ c → ∀ f l, state.1.chart.get f l c = r.chart.get f l c := fun c hc =>
      get_applyAll_of_ne hlim hs' hf hl hfrom happ fun a ha => by
        obtain ⟨d, -, rfl⟩ := List.mem_map.mp ha
        exact hc
    intro a ha hba
    rcases List.mem_append.mp ha with ha | ha
    · -- a rule that was applied before: its cell has lost something at most
      refine succeeds_of_subset hu.sound.bounded hlat.isPrefix (fun d hd => ?_) (hu.succeeds a ha hba)
      rw [hget a.target (hbefore a ha)] at hd
      exact hsub a.target d hd
    · rw [List.mem_singleton] at ha
      subst ha
      refine succeeds_of_subset hs'.bounded hlat'.isPrefix (fun d hd => ?_) fun d hd => ?_
      · rwa [hget a.target hself] at hd
      · exact ((applyAll_eq_ok_iff hlim fun b hb' => (hfrom b hb').fits hs' hf hl).mp happ).1 _
          (List.mem_map_of_mem hd)
  · rename_i hb
    rw [h]
    intro a ha hba
    rcases List.mem_append.mp ha with ha | ha
    · exact hu.succeeds a ha hba
    · rw [List.mem_singleton] at ha
      exact absurd (ha ▸ hba) hb

/-- Pruning the cells of a span adds nothing to any cell. -/
theorem subset_foldl_pruneOnce (hq : task.beam.Quiet) (hp : p.Sound task) (pruned cats : List String)
    (f l : Nat) (c : String) :
    ((cats.foldl (pruneOnce first last) (p, pruned)).1.chart.get f l c).Subperm (p.chart.get f l c) := by
  refine (foldl_induct
    (P := fun _ (s : Progress α × List String) =>
      s.1.Sound task ∧ (s.1.chart.get f l c).Subperm (p.chart.get f l c))
    cats (p, pruned) (f := pruneOnce first last) ⟨hp, .refl _⟩ ?_).2
  rintro _ cat _ ⟨p', pruned'⟩ _ ⟨hs, hsub⟩
  exact ⟨sound_pruneOnce hq hs first last pruned' cat,
    (get_pruneOnce_subperm (hs.beam ▸ hq : p'.chart.beam.Quiet) first last pruned' cat f l c).trans hsub⟩

/-- What is covered by its parts was applied. -/
theorem mem_coverings_of_mem_ways (hc : task.coarse = none) (hd : p.chart.Distinct) (hf : first < last)
    {r : Rule} (hr : r ∈ rules) (hu : r.isCatUnary = false) (hb : task.canBuild r first last = true)
    {w : List Nat}
    (hw : w ∈ ways (fun i s => task.ex.token i == s) (properParts p.chart first last) last r.rhs first) :
    { rule := r, first, last, children := w } ∈
      coverings task p.chart first last first (trieOf rules) [] := by
  rw [← map_rule_numberRules rules] at hr
  obtain ⟨n, hn, rfl⟩ := List.mem_map.mp hr
  rw [← Multiset.mem_coe, coverings_eq_bind hc hd (filed_trieOf rules) (Nat.le_of_lt hf), Multiset.mem_bind]
  refine ⟨n, Multiset.mem_coe.mpr (List.mem_filter.mpr ⟨hn, by rw [hu]; rfl⟩), ?_⟩
  rw [along_of_eq (List.nil_append _).symm, if_pos hb]
  exact Multiset.mem_map.mpr ⟨w, hw, rfl⟩

/-- **Building a span** leaves no way to apply a rule over it that fails. -/
theorem clear_buildSpan (hlim : task.limit = none) (hc : task.coarse = none) (hq : task.beam.Quiet)
    (hr : Ready rules unaries) (htok : LiteralTokens task rules) (hp : p.Sound task) (hf : first < last)
    (hl : last ≤ task.length) (h : buildSpan task (trieOf rules) unaries p (first, last) = .ok q) :
    q.Clear task rules first last := by
  obtain ⟨hsq, hlatq⟩ := step_buildSpan hlim hq hr hp hf hl h
  obtain ⟨p₁, p₂, pruned, h₁, h₂, rfl⟩ := (buildSpan_eq_ok_iff hlim hr hp hf hl).mp h
  have hfrom := fun a (ha : a ∈ coverings task p.chart first last first (trieOf rules) []) =>
    fromChart_coverings hp.distinct ha
  obtain ⟨hs₁, -⟩ := step_applyAll hlim hr.cats hp hf hl hfrom h₁
  have hu : UnariesClear task p₁ first last unaries p₂ := by
    refine foldlM_induct
      (P := fun pre (s : Progress α × List String) => UnariesClear task p₁ first last pre s.1)
      ⟨hs₁, .refl p₁, fun r hr => nomatch hr⟩ ?_ h₂
    rintro pre rule post ⟨p', pruned'⟩ s' hlist hu hstep
    have hmem : rule ∈ unaries := hlist ▸ by simp
    have horder := UnaryOrder.pairwise_sort hr.sorted
    rw [hlist] at horder
    exact hu.step hlim hq hr.cats hf hl ((UnaryOrder.mem_sort hr.sorted).mp hmem).1
      (fun a ha => (List.pairwise_append.mp horder).2.2 a ha rule List.mem_cons_self)
      (UnaryOrder.lhs_ne_target_of_sort hr.sorted hmem) hstep
  intro r hrm hb w hw
  cases hun : r.isCatUnary with
  | false =>
    -- the rule was applied to parts of the span at the start
    rw [ways_eq_ways htok hrm hun hsq hlatq hf hl] at hw
    have hmem := mem_coverings_of_mem_ways hc hp.distinct hf hrm hun hb hw
    have hfits := (hfrom _ hmem).fits hp hf hl
    exact (succeeds_congr hlatq.isPrefix hfits.children).mpr
      (((applyAll_eq_ok_iff hlim fun a ha => (hfrom a ha).fits hp hf hl).mp h₁).1 _ hmem)
  | true =>
    have hcat := Rule.isCat_target hun
    rw [r.rhs_of_isCatUnary hun, ways_singleton hf (by simp [Task.isLiteral, hcat])] at hw
    obtain ⟨d, hd, rfl⟩ := Multiset.mem_map.mp hw
    unfold Progress.parts at hd
    rw [if_pos hcat, Multiset.mem_coe] at hd
    have hmem : r ∈ unaries := (UnaryOrder.mem_sort hr.sorted).mpr ⟨hrm, hun⟩
    obtain ⟨-, hlat⟩ := step_foldl_pruneOnce hq hu.sound first last pruned (p₂.chart.cats first last)
    refine succeeds_of_subset hu.sound.bounded hlat.isPrefix (fun d hd => ?_) (hu.succeeds r hmem hb) d hd
    exact (subset_foldl_pruneOnce hq hu.sound pruned (p₂.chart.cats first last) first last r.target).subset hd

/-! ## Texts -/

/-- **No way to apply a rule fails in the finished chart.** -/
theorem clear_run (hlim : task.limit = none) (hc : task.coarse = none) (hq : task.beam.Quiet)
    (hr : Ready rules unaries) (htok : LiteralTokens task rules)
    (h : run task (trieOf rules) unaries = .ok p) (hf : first < last) (hl : last ≤ task.length) :
    p.Clear task rules first last := by
  have hrun := foldlM_induct
    (P := fun pre q => q.Sound task ∧ ∀ i j, (i, j) ∈ pre → q.Clear task rules i j)
    ⟨sound_seed task, fun i j hm => nomatch hm⟩ (by
      rintro pre ⟨i', j'⟩ post q q' hspans ⟨hs, hclear⟩ hstep
      obtain ⟨hf', hl'⟩ :=
        mem_spansByLength.mp (hspans ▸ by simp : (i', j') ∈ spansByLength task.length)
      obtain ⟨hs', hlat⟩ := step_buildSpan hlim hq hr hs hf' hl' hstep
      refine ⟨hs', fun i j hm => ?_⟩
      rcases List.mem_append.mp hm with hm | hm
      · -- work on a span that does not lie within this one
        intro r hrm hb w hw
        rw [ways_of_later hlat (not_within_of_mem hspans hm)] at hw
        exact (succeeds_congr hlat.isPrefix fun c hc => lt_size_of_mem_ways hs.bounded hw hc).mpr
          (hclear i j hm r hrm hb w hw)
      · obtain ⟨rfl, rfl⟩ := Prod.mk.inj (List.mem_singleton.mp hm)
        exact clear_buildSpan hlim hc hq hr htok hs hf' hl' hstep) h
  exact hrun.2 first last (mem_spansByLength.mpr ⟨hf, hl⟩)

end BottomUp

/-! ## Cells as trees -/

namespace Progress

/-- The trees that a symbol stands for over a span. -/
def partTrees (p : Progress α) (first last : Nat) (symbol : String) : Multiset (DerivationTree α) :=
  (p.parts first last symbol).map p.arena.unfold

theorem unfold_essence (arena : Arena α) (d : Derivation α) : d.essence.unfold arena = d.unfold arena := rfl

/-- The trees of what a rule says. -/
theorem map_unfold_ruled (herr : task.pruneErrors = false) (r : Rule) :
    (p.ruled task first last r).map (Derivation.unfold p.arena) =
      (ways task.isLiteral p.partTrees last r.rhs first).bind fun w =>
        (Composition.trees task ⟨r, first, last, w⟩ : Multiset (DerivationTree α)) := by
  have hproduce : ∀ a : Application, (p.produce task a).map (Derivation.unfold p.arena) =
      ((a.over p.arena).trees task : Multiset (DerivationTree α)) := by
    intro a
    unfold produce yields Composition.trees
    rw [results_over, List.filter_eq_self.mpr fun c _ => by unfold Composition.keeps; rw [herr]; rfl,
      Multiset.map_map, Multiset.map_coe]
    congr 1
    refine List.map_congr_left fun c _ => ?_
    rw [Function.comp_apply, unfold_essence, unfold_derive]
  have hways : ways task.isLiteral p.partTrees last r.rhs first =
      (ways task.isLiteral p.parts last r.rhs first).map (List.map p.arena.unfold) := ways_map _ _ _
  unfold ruled
  rw [Multiset.map_bind, hways, Multiset.bind_map]
  exact Multiset.bind_congr fun w _ => hproduce _

/-- **A cell holds the trees that it should hold.** -/
theorem treesAt_eq (herr : task.pruneErrors = false) (hc : task.coarse = none) (hp : p.Bounded)
    (hdesc : BottomUp.Descending p) {cat : String} (h : p.Holds task rules first last cat) :
    (p.treesAt first last cat : Multiset (DerivationTree α)) =
      (seedTrees task).filter (fun t => t.isAt first last cat) +
        ((rules.filter fun r => r.lhs = cat : List Rule) : Multiset Rule).bind fun r =>
          if task.canBuild r first last then
            (ways task.isLiteral p.partTrees last r.rhs first).bind fun w =>
              Composition.trees task ⟨r, first, last, w⟩
          else 0 := by
  have hcell : (p.treesAt first last cat : Multiset (DerivationTree α)) =
      (p.content first last cat).map (Derivation.unfold p.arena) := by
    unfold treesAt cellOf content
    rw [Multiset.map_map, Multiset.map_coe, Multiset.coe_eq_coe]
    refine List.Perm.of_eq (List.map_congr_left fun i hi => ?_)
    unfold Arena.essence
    rw [Function.comp_apply, unfold_essence]
    exact Arena.unfold_eq (hdesc i (hp first last cat i hi))
  have hseeds : (seeded task first last cat).map (Derivation.unfold p.arena) =
      (seedTrees task).filter fun t => t.isAt first last cat := by
    have hfilter : ((ratedTerminals task).map (Derivation.unfold Arena.empty)).filter
          (fun t => t.isAt first last cat) =
        ((ratedTerminals task).filter fun d => d.isAt first last cat).map (Derivation.unfold Arena.empty) :=
      List.filter_map
    unfold seeded seedTrees
    rw [Multiset.filter_coe, Multiset.map_coe, List.map_map]
    simp only [Bool.decide_eq_true]
    rw [hfilter]
    refine congrArg _ (List.map_congr_left fun d hd => ?_)
    have hnone := (mem_ratedTerminals (List.mem_filter.mp hd).1).2.2.2
    show DerivationTree.node d.label (d.children.map p.arena.unfold) =
      DerivationTree.node d.label (d.children.map Arena.empty.unfold)
    rw [hnone]
    rfl
  have hrules : (rulesOver task rules first last cat : Multiset Rule) =
      Multiset.filter (fun r => task.canBuild r first last = true)
        ((rules.filter fun r => r.lhs = cat : List Rule) : Multiset Rule) := by
    rw [← BottomUp.filter_canBuild hc, Multiset.filter_coe, List.filter_filter]
    simp only [Bool.decide_and, Bool.and_comm]
  rw [hcell, h, Multiset.map_add, hseeds, Multiset.map_bind, hrules, Multiset.bind_filter]
  congr 1
  refine Multiset.bind_congr fun r _ => ?_
  split
  · exact map_unfold_ruled herr r
  · rfl

end Progress

/-! ## The forest -/

/-- **The trees of a finished parse**: they are what comes of them, they are what its cells hold, and nothing fails
that can be put together from them. -/
structure Harvest (task : Task α) (rules : List Rule) (p : Progress α) (forest : Multiset (DerivationTree α)) :
    Prop where
  fixed : forest = consequences task rules forest
  cells : ∀ first last cat, first < last → last ≤ task.length →
    (p.treesAt first last cat : Multiset (DerivationTree α)) = forest.filter fun t => t.isAt first last cat
  succeeds : ∀ c ∈ compositions task rules forest, c.Succeeds task

/-- The trees of all cells. -/
def Progress.forestOf (p : Progress α) (n : Nat) : Multiset (DerivationTree α) :=
  overSpans n fun first last =>
    (p.chart.cats first last : Multiset String).bind fun cat =>
      (p.treesAt first last cat : Multiset (DerivationTree α))

/-- The trees of a cell among those of all cells. -/
theorem filter_forestOf (hd : p.chart.Distinct)
    (hat : ∀ i j c, i < j → j ≤ task.length → ∀ t ∈ p.treesAt i j c, t.isAt i j c = true) (hf : first < last)
    (hl : last ≤ task.length) (cat : String) :
    (p.forestOf task.length).filter (fun t => t.isAt first last cat) = p.treesAt first last cat := by
  have hnone : ∀ i j c, i < j → j ≤ task.length → ¬((i = first ∧ j = last) ∧ c = cat) →
      (p.treesAt i j c : Multiset (DerivationTree α)).filter (fun t => t.isAt first last cat) = 0 := by
    intro i j c hij hj hne
    refine Multiset.filter_eq_nil.mpr fun t ht hm => hne ?_
    obtain ⟨h1, h2, h3⟩ := DerivationTree.isAt_iff.mp (hat i j c hij hj t (Multiset.mem_coe.mp ht))
    obtain ⟨h1', h2', h3'⟩ := DerivationTree.isAt_iff.mp hm
    exact ⟨⟨h1.symm.trans h1', h2.symm.trans h2'⟩, h3.symm.trans h3'⟩
  have hself : (p.treesAt first last cat : Multiset (DerivationTree α)).filter
      (fun t => t.isAt first last cat) = p.treesAt first last cat :=
    Multiset.filter_eq_self.mpr fun t ht => hat first last cat hf hl t (Multiset.mem_coe.mp ht)
  unfold forestOf
  rw [filter_overSpans, overSpans_congr (g := fun i j =>
    if i = first ∧ j = last then (p.treesAt first last cat : Multiset (DerivationTree α)) else 0) ?_,
    overSpans_eq_of_unique hf hl fun i j hne => if_neg hne, if_pos ⟨rfl, rfl⟩]
  intro i j hij hj
  rw [Multiset.filter_bind]
  split
  · rename_i he
    obtain ⟨rfl, rfl⟩ := he
    by_cases hcat : cat ∈ p.chart.cats i j
    · rw [bind_eq_of_unique (Multiset.coe_nodup.mpr (hd.nodup_cats i j)) (Multiset.mem_coe.mpr hcat), hself]
      exact fun c _ hne => hnone i j c hij hj fun he => hne he.2
    · -- a category that is not there has no trees
      rw [treesAt_of_not_mem hcat, Multiset.bind_congr fun c hc => hnone i j c hij hj fun he =>
        hcat (he.2 ▸ Multiset.mem_coe.mp hc), Multiset.bind_zero]
      rfl
  · rename_i hne
    rw [Multiset.bind_congr fun c _ => hnone i j c hij hj fun he => hne he.1, Multiset.bind_zero]

/-- **A bottom-up parse that drops nothing** has a harvest. -/
theorem exists_harvest (hlim : task.limit = none) (herr : task.pruneErrors = false) (hc : task.coarse = none)
    (hq : task.beam.Quiet) (hr : BottomUp.Ready rules unaries) (htok : BottomUp.LiteralTokens task rules)
    (h : BottomUp.run task (trieOf rules) unaries = .ok p) (hfell : p.chart.stats.fellOff = false) :
    ∃ forest, Harvest task rules p forest := by
  have hdone := BottomUp.spansDone_run hlim herr hc hq hr htok h
  have hsound := hdone.sound
  have heq := fun i j c (hij : i < j) (hj : j ≤ task.length) =>
    treesAt_eq herr hc hsound.bounded (BottomUp.descending_run hlim hq hr h)
      (hdone.holds hfell i j (mem_spansByLength.mpr ⟨hij, hj⟩) c)
  have hat : ∀ i j c, i < j → j ≤ task.length → ∀ t ∈ p.treesAt i j c, t.isAt i j c = true := by
    intro i j c hij hj t ht
    rw [← Multiset.mem_coe, heq i j c hij hj, Multiset.mem_add] at ht
    rcases ht with ht | ht
    · exact (Multiset.mem_filter.mp ht).2
    · obtain ⟨r, hr, ht⟩ := Multiset.mem_bind.mp ht
      split at ht
      · obtain ⟨w, -, ht⟩ := Multiset.mem_bind.mp ht
        obtain ⟨h1, h2, h3⟩ := Composition.isAt_of_mem_trees (Multiset.mem_coe.mp ht)
        have hlhs : r.lhs = c := of_decide_eq_true (List.mem_filter.mp (Multiset.mem_coe.mp hr)).2
        exact DerivationTree.isAt_iff.mpr ⟨h2, h3, h1.trans hlhs⟩
      · cases ht
  have hcells := fun i j c (hij : i < j) (hj : j ≤ task.length) =>
    (filter_forestOf hsound.distinct hat hij hj c).symm
  have hlies : ∀ t ∈ p.forestOf task.length, t.LiesIn task.length := by
    intro t ht
    obtain ⟨i, j, hij, hj, ht⟩ := mem_overSpans.mp ht
    obtain ⟨c, hmem, ht⟩ := Multiset.mem_bind.mp ht
    obtain ⟨rfl, rfl, rfl⟩ := DerivationTree.isAt_iff.mp (hat i j c hij hj t (Multiset.mem_coe.mp ht))
    exact ⟨hij, hj, hsound.cats _ _ _ (Multiset.mem_coe.mp hmem)⟩
  generalize p.forestOf task.length = forest at hcells hlies
  -- a way by trees of the forest is a way by derivations of the chart
  have hways : ∀ (r : Rule) (j i : Nat), j ≤ task.length →
      ways task.isLiteral (among forest) j r.rhs i = ways task.isLiteral p.partTrees j r.rhs i := by
    intro r j i hj
    refine ways_congr (fun _ _ _ _ _ => rfl) fun a b _ hab hb s _ => ?_
    unfold among partTrees parts
    split
    · rw [← hcells a b s hab (Nat.le_trans hb hj)]
      rfl
    · rfl
  refine ⟨forest, ?_, hcells, ?_⟩
  · refine eq_of_filter_isAt hlies (fun t ht => liesIn_of_mem_consequences hr.cats ht) fun i j c hij hj => ?_
    rw [← hcells i j c hij hj, heq i j c hij hj, filter_consequences hij hj]
    congr 1
    refine Multiset.bind_congr fun r _ => ?_
    unfold applicable
    split
    · rw [Multiset.bind_map, hways r j i hj]
    · exact (Multiset.zero_bind _).symm
  · intro c hmem
    obtain ⟨i, j, hij, hj, hmem⟩ := mem_overSpans.mp hmem
    obtain ⟨r, hrm, hmem⟩ := Multiset.mem_bind.mp hmem
    unfold applicable at hmem
    split at hmem
    · rename_i hb
      obtain ⟨w, hw, rfl⟩ := Multiset.mem_map.mp hmem
      have hmap : ways task.isLiteral p.partTrees j r.rhs i =
          (ways task.isLiteral p.parts j r.rhs i).map (List.map p.arena.unfold) := ways_map _ _ _
      rw [hways r j i hj, hmap] at hw
      obtain ⟨children, hch, rfl⟩ := Multiset.mem_map.mp hw
      exact (succeeds_over p { rule := r, first := i, last := j, children }).mpr
        (BottomUp.clear_run hlim hc hq hr htok h hij hj r (Multiset.mem_coe.mp hrm) hb children hch)
    · cases hmem

end Parlance
