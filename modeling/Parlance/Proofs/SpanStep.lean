import Parlance.Proofs.Covering
import Parlance.Proofs.Growth
import Parlance.Proofs.Spans
import Parlance.Proofs.UnaryOrder

/-!
# `Proofs.SpanStep` — what building a span keeps

The work on a span changes the cell of that span only, and derivations stay what they are. `Sound` is what the
chart of a parse that goes from short spans to long ones always is; `Later` says of two moments of a parse that
only one span was worked on in between.

## Contents
- **Invariants.** `Sound` and `Later`, kept by putting in and by pruning.
- **Pruning.** What `pruneOnce` does to a parse.
- **Applications.** Those that a span gives rise to fit the parse; none of them takes one part.
- **Unary rules.** `applyUnary`, step by step.
-/

namespace Parlance

open Progress

variable {α : Type}

/-! ## Invariants -/

namespace Progress

/-- **What the chart of a parse always is.** -/
structure Sound (task : Task α) (p : Progress α) : Prop where
  distinct : p.chart.Distinct
  bounded : p.Bounded
  nodup : ∀ f l c, (p.chart.get f l c).Nodup
  hasSpan : ∀ f l, f < l → l ≤ task.length → p.chart.HasSpan f l
  cats : ∀ f l, ∀ c ∈ p.chart.cats f l, isCat c = true
  beam : p.chart.beam = task.beam
  length : p.chart.length = task.length

/-- **A later moment of a parse**, when nothing but a span was worked on in between. -/
structure Later (first last : Nat) (p q : Progress α) : Prop where
  isPrefix : p.arena.bares <+: q.arena.bares
  get : ∀ f l c, ¬(f = first ∧ l = last) → q.chart.get f l c = p.chart.get f l c
  cats : ∀ f l, ¬(f = first ∧ l = last) → q.chart.cats f l = p.chart.cats f l
  maxCell : p.chart.stats.maxCell ≤ q.chart.stats.maxCell
  fellOff : q.chart.stats.fellOff = false → p.chart.stats.fellOff = false

variable {task : Task α} {first last : Nat} {p q r : Progress α} {ds : List (Derivation α)}

theorem Later.refl (p : Progress α) : Later first last p p :=
  ⟨List.prefix_rfl, fun _ _ _ _ => rfl, fun _ _ _ => rfl, Nat.le_refl _, id⟩

theorem Later.trans (h : Later first last p q) (h' : Later first last q r) : Later first last p r where
  isPrefix := h.isPrefix.trans h'.isPrefix
  get f l c hn := (h'.get f l c hn).trans (h.get f l c hn)
  cats f l hn := (h'.cats f l hn).trans (h.cats f l hn)
  maxCell := Nat.le_trans h.maxCell h'.maxCell
  fellOff hq := h.fellOff (h'.fellOff hq)

theorem numbersAt_eq_nil {f l i : Nat} {c : String} (h : ∀ d ∈ ds, d.isAt f l c = false) :
    numbersAt f l c i ds = [] := by
  refine List.eq_nil_iff_forall_not_mem.mpr fun j hj => ?_
  obtain ⟨k, d, hk, hd, -⟩ := mem_numbersAt.mp hj
  rw [h d (List.mem_of_getElem? hk)] at hd
  cases hd

/-- Derivations over a span go into its cell. -/
theorem Grown.later (h : Grown p ds q) (hd : ∀ d ∈ ds, d.first = first ∧ d.last = last) :
    Later first last p q where
  isPrefix := h.isPrefix
  get f l c hn := by
    have hnone : ∀ d ∈ ds, d.isAt f l c = false := fun d hm => by
      rw [Bool.eq_false_iff]
      intro hat
      obtain ⟨hf, hl, -⟩ := Derivation.isAt_iff.mp hat
      exact hn ⟨hf.symm.trans (hd d hm).1, hl.symm.trans (hd d hm).2⟩
    rw [h.get, numbersAt_eq_nil hnone, List.append_nil]
  cats f l hn := by
    refine (h.cats f l).trans (catsWith_eq_self fun d hm he => hn ?_)
    rw [← he.1, ← he.2]
    exact hd d hm
  maxCell := Nat.le_of_eq h.maxCell.symm
  fellOff hq := h.fellOff ▸ hq

theorem nodup_numbersAt (f l i : Nat) (c : String) (ds : List (Derivation α)) :
    (numbersAt f l c i ds).Nodup := by
  induction ds generalizing i with
  | nil => exact List.nodup_nil
  | cons d ds ih =>
    rw [numbersAt]
    split
    · refine List.nodup_cons.mpr ⟨fun h => ?_, ih (i + 1)⟩
      obtain ⟨k, e, -, -, hk⟩ := mem_numbersAt.mp h
      omega
    · exact ih (i + 1)

theorem Sound.grown (hp : p.Sound task) (h : Grown p ds q) (hd : ∀ d ∈ ds, isCat d.cat = true) :
    q.Sound task where
  distinct := h.distinct hp.distinct
  bounded := h.bounded hp.bounded
  nodup f l c := by
    rw [h.get, List.nodup_append]
    refine ⟨hp.nodup f l c, nodup_numbersAt _ _ _ _ _, fun i hi j hj he => ?_⟩
    obtain ⟨k, d, -, -, hk⟩ := mem_numbersAt.mp hj
    have := hp.bounded f l c i hi
    omega
  hasSpan f l hf hl := (h.hasSpan f l).mpr (hp.hasSpan f l hf hl)
  cats f l c hc := by
    rw [h.cats, mem_catsWith] at hc
    rcases hc with hc | ⟨d, hm, hat⟩
    · exact hp.cats f l c hc
    · exact (Derivation.isAt_iff.mp hat).2.2 ▸ hd d hm
  beam := h.beam.trans hp.beam
  length := h.length.trans hp.length

end Progress

/-! ## Pruning -/

namespace BottomUp

variable [Score α] {task : Task α} {first last : Nat} {p : Progress α} {pruned : List String}

theorem pruneOnce_of_mem {cat : String} (h : cat ∈ pruned) :
    pruneOnce first last (p, pruned) cat = (p, pruned) := by
  unfold pruneOnce
  exact if_pos (by simpa using h)

theorem pruneOnce_of_not_mem {cat : String} (h : cat ∉ pruned) :
    pruneOnce first last (p, pruned) cat =
      ({ p with
          chart := (p.chart.prune p.arena first last cat).1
          arena := (p.chart.prune p.arena first last cat).2 }, cat :: pruned) := by
  unfold pruneOnce
  exact if_neg (by simpa using h)

theorem mem_pruned_pruneOnce {cat c : String} :
    c ∈ (pruneOnce first last (p, pruned) cat).2 ↔ c = cat ∨ c ∈ pruned := by
  by_cases h : cat ∈ pruned
  · rw [pruneOnce_of_mem h]
    exact ⟨Or.inr, fun hc => hc.elim (fun he => he ▸ h) id⟩
  · rw [pruneOnce_of_not_mem h, List.mem_cons]

/-- Pruning without noise leaves all derivations as they are. -/
theorem bares_pruneOnce (hq : p.chart.beam.Quiet) (cat : String) :
    (pruneOnce first last (p, pruned) cat).1.arena.bares = p.arena.bares := by
  by_cases h : cat ∈ pruned
  · rw [pruneOnce_of_mem h]
  · rw [pruneOnce_of_not_mem h]
    exact Chart.bares_prune hq p.arena cat

/-- Pruning without noise leaves the best derivations, once. -/
theorem get_pruneOnce_self (hq : p.chart.beam.Quiet) (cat : String) :
    (pruneOnce first last (p, pruned) cat).1.chart.get first last cat =
      if cat ∈ pruned then p.chart.get first last cat
      else p.chart.beam.best p.arena (p.chart.get first last cat) := by
  by_cases h : cat ∈ pruned
  · rw [pruneOnce_of_mem h, if_pos h]
  · rw [pruneOnce_of_not_mem h, if_neg h]
    exact Chart.get_prune_self hq p.arena cat

theorem get_pruneOnce_of_ne {cat c : String} {f l : Nat} (hn : ¬(f = first ∧ l = last ∧ c = cat)) :
    (pruneOnce first last (p, pruned) cat).1.chart.get f l c = p.chart.get f l c := by
  by_cases h : cat ∈ pruned
  · rw [pruneOnce_of_mem h]
  · rw [pruneOnce_of_not_mem h]
    exact Chart.get_prune_of_ne p.arena hn

theorem cats_pruneOnce (p : Progress α) (pruned : List String) (first last : Nat) (cat : String)
    (f l : Nat) :
    (pruneOnce first last (p, pruned) cat).1.chart.cats f l = p.chart.cats f l := by
  by_cases h : cat ∈ pruned
  · rw [pruneOnce_of_mem h]
  · rw [pruneOnce_of_not_mem h]
    exact Chart.cats_prune p.arena cat f l

theorem maxCell_pruneOnce (p : Progress α) (pruned : List String) (first last : Nat) (cat : String) :
    p.chart.stats.maxCell ≤ (pruneOnce first last (p, pruned) cat).1.chart.stats.maxCell := by
  by_cases h : cat ∈ pruned
  · rw [pruneOnce_of_mem h]
  · rw [pruneOnce_of_not_mem h]
    exact (Chart.maxCell_prune p.chart p.arena first last cat).1

/-- Pruning without noise notes whether it drops anything. -/
theorem fellOff_pruneOnce (hq : p.chart.beam.Quiet) (pruned : List String) (first last : Nat) (cat : String) :
    (pruneOnce first last (p, pruned) cat).1.chart.stats.fellOff =
      (p.chart.stats.fellOff || (decide (cat ∉ pruned) &&
        decide ((p.chart.beam.best p.arena (p.chart.get first last cat)).length <
          (p.chart.get first last cat).length))) := by
  by_cases h : cat ∈ pruned
  · rw [pruneOnce_of_mem h, decide_eq_false (not_not.mpr h), Bool.false_and, Bool.or_false]
  · rw [pruneOnce_of_not_mem h, decide_eq_true h, Bool.true_and]
    exact Chart.fellOff_prune hq p.arena first last cat

theorem later_pruneOnce (hq : p.chart.beam.Quiet) (first last : Nat) (pruned : List String)
    (cat : String) :
    Later first last p (pruneOnce first last (p, pruned) cat).1 where
  isPrefix := by
    rw [bares_pruneOnce hq]
  get f l c hn := get_pruneOnce_of_ne fun h => hn ⟨h.1, h.2.1⟩
  cats f l _ := cats_pruneOnce p pruned first last cat f l
  maxCell := maxCell_pruneOnce p pruned first last cat
  fellOff h := by
    rw [fellOff_pruneOnce hq, Bool.or_eq_false_iff] at h
    exact h.1

/-- What pruning keeps is among what there was, and without repetitions if that was. -/
theorem get_pruneOnce_subperm (hq : p.chart.beam.Quiet) (first last : Nat) (pruned : List String)
    (cat : String) (f l : Nat) (c : String) :
    ((pruneOnce first last (p, pruned) cat).1.chart.get f l c).Subperm (p.chart.get f l c) := by
  by_cases h : f = first ∧ l = last ∧ c = cat
  · obtain ⟨rfl, rfl, rfl⟩ := h
    rw [get_pruneOnce_self hq]
    split
    · exact List.Subperm.refl _
    · exact Beam.best_subperm _ _ _
  · rw [get_pruneOnce_of_ne h]

/-- **Pruning that drops nothing.** -/
theorem get_pruneOnce_perm (hq : p.chart.beam.Quiet) (pruned : List String) (cat : String)
    (hfell : (pruneOnce first last (p, pruned) cat).1.chart.stats.fellOff = false) (f l : Nat) (c : String) :
    ((pruneOnce first last (p, pruned) cat).1.chart.get f l c).Perm (p.chart.get f l c) := by
  by_cases h : f = first ∧ l = last ∧ c = cat
  · obtain ⟨rfl, rfl, rfl⟩ := h
    rw [fellOff_pruneOnce hq, Bool.or_eq_false_iff] at hfell
    rw [get_pruneOnce_self hq]
    split
    · exact List.Perm.refl _
    · rename_i hmem
      rw [decide_eq_true hmem, Bool.true_and, decide_eq_false_iff_not] at hfell
      exact Beam.best_perm (Nat.le_of_not_lt hfell.2)
  · rw [get_pruneOnce_of_ne h]

theorem sound_pruneOnce (hq : task.beam.Quiet) (hp : p.Sound task) (first last : Nat)
    (pruned : List String) (cat : String) :
    (pruneOnce first last (p, pruned) cat).1.Sound task := by
  have hq' : p.chart.beam.Quiet := hp.beam ▸ hq
  have hs : p.arena.size = (pruneOnce first last (p, pruned) cat).1.arena.size := by
    rw [← Arena.length_bares, ← Arena.length_bares, bares_pruneOnce hq']
  refine ⟨?_, ?_, ?_, ?_, ?_, ?_, ?_⟩
  · intro f l
    have h := hp.distinct.nodup_cats f l
    rwa [← cats_pruneOnce p pruned first last cat f l, Chart.cats_eq] at h
  · intro f l c i hi
    rw [← hs]
    exact hp.bounded f l c i ((get_pruneOnce_subperm hq' first last pruned cat f l c).subset hi)
  · intro f l c
    obtain ⟨kept, hperm, hsub⟩ := get_pruneOnce_subperm hq' first last pruned cat f l c
    exact hperm.nodup_iff.mp ((hp.nodup f l c).sublist hsub)
  · intro f l hf hl
    have h := hp.hasSpan f l hf hl
    by_cases hc : cat ∈ pruned
    · rwa [pruneOnce_of_mem hc]
    · rw [pruneOnce_of_not_mem hc]
      exact (Chart.hasSpan_prune p.arena).mpr h
  · intro f l c hc
    rw [cats_pruneOnce] at hc
    exact hp.cats f l c hc
  · by_cases hc : cat ∈ pruned
    · rw [pruneOnce_of_mem hc]; exact hp.beam
    · rw [pruneOnce_of_not_mem hc]; exact (Chart.beam_prune p.arena cat).trans hp.beam
  · by_cases hc : cat ∈ pruned
    · rw [pruneOnce_of_mem hc]; exact hp.length
    · rw [pruneOnce_of_not_mem hc]; exact (Chart.length_prune p.arena cat).trans hp.length

/-! ## Applications -/

omit [Score α] in
/-- No rule of a trie takes one part, unless it takes a literal. -/
theorem wholeSpan_eq_nil {l : List NumberedRule} {trie : Trie} (h : Trie.Filed l [] trie)
    (hl : ∀ r ∈ l, r.rule.isCatUnary = false)
    (hc : ∀ c ∈ p.chart.cats first last, isCat c = true) :
    wholeSpan task p.chart first last trie = [] := by
  rw [List.eq_nil_iff_forall_not_mem]
  intro a ha
  obtain ⟨cat, ds, next, d, hentry, -, hnext, ha⟩ := exists_of_mem_wholeSpan ha
  obtain ⟨r, hr, hrhs, -, -⟩ := exists_of_mem_endings (h.next hnext) ha
  have hcat : isCat cat = true := hc cat (List.mem_map_of_mem (f := (·.1)) hentry)
  have hunary := hl r hr
  unfold Rule.isCatUnary at hunary
  rw [hrhs] at hunary
  exact absurd (hunary.symm.trans hcat) (by simp)

/-- An application of a rule of a list over a span, to `before` and to derivations of the chart. -/
structure FromChart (task : Task α) (chart : Chart α) (l : List Rule) (first last : Nat)
    (before : List Nat) (a : Application) : Prop where
  rule : a.rule ∈ l
  canBuild : task.canBuild a.rule first last = true
  first : a.first = first
  last : a.last = last
  children : ∀ c ∈ a.children, c ∈ before ∨ ∃ f l cat, c ∈ chart.get f l cat

omit [Score α] in
/-- The applications that cover a span by its parts take rules of the trie and derivations of the chart. -/
theorem Way.fromChart {chart : Chart α} (hd : chart.Distinct) {l : List NumberedRule} {path : List String}
    {trie : Trie} (h : Trie.Filed l path trie) {i : Nat} {children : List Nat} {a : Application}
    (way : Way task chart first last a i trie children) :
    FromChart task chart (l.map NumberedRule.rule) first last children a := by
  obtain ⟨r, hr, hrule, hbuild⟩ := way.exists_rule h
  refine ⟨hrule ▸ List.mem_map_of_mem hr, hrule ▸ hbuild, way.span.1, way.span.2, fun c hc => ?_⟩
  rcases way.children_cases hd c hc with hc | ⟨f, l, cat, -, -, -, -, hc⟩
  · exact .inl hc
  · exact .inr ⟨f, l, cat, hc⟩

omit [Score α] in
theorem FromChart.fits {l : List Rule} {a : Application} (ha : FromChart task p.chart l first last [] a)
    (hp : p.Sound task) (hf : first < last) (hl : last ≤ task.length) : Application.Fits p a where
  hasSpan := by
    rw [ha.first, ha.last]
    exact hp.hasSpan first last hf hl
  children c hc := by
    rcases ha.children c hc with h | ⟨f, l, cat, h⟩
    · cases h
    · exact hp.bounded f l cat c h

/-! ## Steps -/

/-- **Applying rules over a span** keeps the chart sound and touches the cell of the span only. -/
theorem step_applyAll (hlim : task.limit = none) {rules : List Rule}
    (hcat : ∀ r ∈ rules, isCat r.lhs = true) (hp : p.Sound task) (hf : first < last)
    (hl : last ≤ task.length) {l : List Application} {q : Progress α}
    (ha : ∀ a ∈ l, FromChart task p.chart rules first last [] a) (h : applyAll task p l = .ok q) :
    q.Sound task ∧ Later first last p q := by
  obtain ⟨hg, -⟩ := grown_applyAll hlim (fun a hm => (ha a hm).fits hp hf hl) h
  have hds : ∀ d ∈ p.derivations task (p.outputs task l) p.made,
      (d.first = first ∧ d.last = last) ∧ isCat d.cat = true := fun d hd => by
    obtain ⟨⟨o, n⟩, ho, rfl⟩ := List.mem_map.mp hd
    have hm := application_of_mem_outputs (List.fst_mem_of_mem_zipIdx (List.mem_filter.mp ho).1)
    have hat : (p.derive task o n).isAt o.application.first o.application.last o.application.rule.lhs
        = true := by
      rw [isAt_derive]
      simp
    obtain ⟨h1, h2, h3⟩ := Derivation.isAt_iff.mp hat
    have hm' := ha _ hm
    simp only at hm' ⊢
    rw [h1, h2, h3]
    exact ⟨⟨hm'.first, hm'.last⟩, hcat _ hm'.rule⟩
  exact ⟨hp.grown hg fun d hd => (hds d hd).2, hg.later fun d hd => (hds d hd).1⟩

/-- Applying a unary rule is pruning what it takes and then applying it to all that is left. -/
theorem applyUnary_eq_ok_iff {rule : Rule} {state : Progress α × List String} :
    applyUnary task first last (p, pruned) rule = .ok state ↔
      if task.canBuild rule first last then
        applyAll task (pruneOnce first last (p, pruned) rule.target).1
          (((pruneOnce first last (p, pruned) rule.target).1.chart.get first last rule.target).map
            fun d => { rule, first, last, children := [d] }) = .ok state.1 ∧
        state.2 = (pruneOnce first last (p, pruned) rule.target).2
      else state = (p, pruned) := by
  obtain ⟨q, pruned'⟩ := state
  unfold applyUnary
  cases hb : task.canBuild rule first last with
  | false =>
    simp only [Bool.not_false, if_true, Bool.false_eq_true, if_false, Except.ok.injEq]
    exact eq_comm
  | true =>
    rw [if_neg (by simp), if_pos rfl, bind_eq_ok]
    constructor
    · rintro ⟨r, hr, hq⟩
      have he := Except.ok.inj hq
      injection he with h1 h2
      exact ⟨h1 ▸ hr, h2.symm⟩
    · rintro ⟨hr, hq⟩
      exact ⟨q, hr, by rw [show pruned' = _ from hq]; rfl⟩

omit [Score α] in
/-- The unary rules take what is found over the span. -/
theorem fromChart_unary {rules : List Rule} {rule : Rule} (hr : rule ∈ rules)
    (hb : task.canBuild rule first last = true) {a : Application}
    (ha : a ∈ (p.chart.get first last rule.target).map
      fun d => ({ rule, first, last, children := [d] } : Application)) :
    FromChart task p.chart rules first last [] a := by
  obtain ⟨d, hd, rfl⟩ := List.mem_map.mp ha
  refine ⟨hr, hb, rfl, rfl, fun c hc => Or.inr ⟨first, last, rule.target, ?_⟩⟩
  rw [List.mem_singleton] at hc
  exact hc ▸ hd

/-- **Applying a unary rule** keeps the chart sound and touches the cell of the span only. -/
theorem step_applyUnary (hlim : task.limit = none) (hq : task.beam.Quiet) {rules : List Rule}
    (hcat : ∀ r ∈ rules, isCat r.lhs = true) (hp : p.Sound task) (hf : first < last)
    (hl : last ≤ task.length) {rule : Rule} (hr : rule ∈ rules) {state : Progress α × List String}
    (h : applyUnary task first last (p, pruned) rule = .ok state) :
    state.1.Sound task ∧ Later first last p state.1 := by
  rw [applyUnary_eq_ok_iff] at h
  split at h
  · rename_i hb
    have hs := sound_pruneOnce hq hp first last pruned rule.target
    have hlat := later_pruneOnce (hp.beam ▸ hq : p.chart.beam.Quiet) first last pruned rule.target
    obtain ⟨hs', hlat'⟩ := step_applyAll hlim hcat hs hf hl (fun a ha => fromChart_unary hr hb ha) h.1
    exact ⟨hs', hlat.trans hlat'⟩
  · rw [h]
    exact ⟨hp, .refl p⟩

/-- Pruning every cell of a span that was not pruned yet. -/
theorem step_foldl_pruneOnce (hq : task.beam.Quiet) (hp : p.Sound task) (first last : Nat)
    (pruned : List String) (cats : List String) :
    ((cats.foldl (pruneOnce first last) (p, pruned)).1).Sound task ∧
      Later first last p (cats.foldl (pruneOnce first last) (p, pruned)).1 := by
  refine foldl_induct (P := fun _ (s : Progress α × List String) => s.1.Sound task ∧ Later first last p s.1)
    cats (p, pruned) ⟨hp, .refl p⟩ ?_
  rintro _ cat _ ⟨q, pruned'⟩ _ ⟨hs, hlat⟩
  exact ⟨sound_pruneOnce hq hs first last pruned' cat,
    hlat.trans (later_pruneOnce (hs.beam ▸ hq : q.chart.beam.Quiet) first last pruned' cat)⟩

/-- The rules that a parse goes by: all of them make categories, and those from one category to one category
are in order. -/
structure Ready (rules unaries : List Rule) : Prop where
  cats : ∀ r ∈ rules, isCat r.lhs = true
  sorted : UnaryOrder.sort rules = .ok unaries

theorem filed_trieOf (rules : List Rule) :
    Trie.Filed ((numberRules rules).filter fun r => !r.rule.isCatUnary) [] (trieOf rules) :=
  Trie.filed_ofRules ((numbers_numberRules rules).sublist (List.filter_sublist.map _))

theorem rule_mem_of_mem_trieOf {rules : List Rule} {r : Rule}
    (h : r ∈ ((numberRules rules).filter fun r => !r.rule.isCatUnary).map NumberedRule.rule) :
    r ∈ rules := by
  rw [← map_rule_numberRules rules]
  exact (List.filter_sublist.map _).subset h

/-- **Building a span**: covering it by its parts, applying the unary rules, and pruning. -/
theorem buildSpan_eq_ok_iff (hlim : task.limit = none) {rules unaries : List Rule}
    (hr : Ready rules unaries) (hp : p.Sound task) (hf : first < last) (hl : last ≤ task.length)
    {q : Progress α} :
    buildSpan task (trieOf rules) unaries p (first, last) = .ok q ↔
      ∃ p₁ p₂ pruned,
        applyAll task p (coverings task p.chart first last first (trieOf rules) []) = .ok p₁ ∧
        unaries.foldlM (applyUnary task first last) (p₁, []) = .ok (p₂, pruned) ∧
        q = ((p₂.chart.cats first last).foldl (pruneOnce first last) (p₂, pruned)).1 := by
  have hwhole : ∀ p₁, applyAll task p (coverings task p.chart first last first (trieOf rules) []) = .ok p₁ →
      applyAll task p₁ (wholeSpan task p₁.chart first last (trieOf rules)) = .ok p₁ := fun p₁ h₁ => by
    obtain ⟨hs₁, -⟩ := step_applyAll hlim hr.cats hp hf hl
      (fun a ha => by
        obtain ⟨h1, h2, h3, h4, h5⟩ := (way_of_mem_coverings ha).fromChart hp.distinct (filed_trieOf rules)
        exact ⟨rule_mem_of_mem_trieOf h1, h2, h3, h4, h5⟩) h₁
    rw [wholeSpan_eq_nil (filed_trieOf rules) (fun r hr => by simpa using (List.mem_filter.mp hr).2)
      (hs₁.cats first last)]
    rfl
  rw [buildSpan_steps_iff]
  constructor
  · rintro ⟨p₁, p₁', ⟨p₂, pruned⟩, h₁, h₁', h₂, rfl⟩
    rw [hwhole p₁ h₁] at h₁'
    obtain rfl := Except.ok.inj h₁'
    exact ⟨p₁, p₂, pruned, h₁, h₂, rfl⟩
  · rintro ⟨p₁, p₂, pruned, h₁, h₂, rfl⟩
    exact ⟨p₁, p₁, (p₂, pruned), h₁, hwhole p₁ h₁, h₂, rfl⟩

omit [Score α] in
theorem fromChart_coverings {rules : List Rule} (hd : p.chart.Distinct) {a : Application}
    (ha : a ∈ coverings task p.chart first last first (trieOf rules) []) :
    FromChart task p.chart rules first last [] a := by
  obtain ⟨h1, h2, h3, h4, h5⟩ := (way_of_mem_coverings ha).fromChart hd (filed_trieOf rules)
  exact ⟨rule_mem_of_mem_trieOf h1, h2, h3, h4, h5⟩

/-- **Building a span** keeps the chart sound and touches the cell of the span only. -/
theorem step_buildSpan (hlim : task.limit = none) (hq : task.beam.Quiet) {rules unaries : List Rule}
    (hr : Ready rules unaries) (hp : p.Sound task) (hf : first < last) (hl : last ≤ task.length)
    {q : Progress α} (h : buildSpan task (trieOf rules) unaries p (first, last) = .ok q) :
    q.Sound task ∧ Later first last p q := by
  obtain ⟨p₁, p₂, pruned, h₁, h₂, rfl⟩ := (buildSpan_eq_ok_iff hlim hr hp hf hl).mp h
  obtain ⟨hs₁, hlat₁⟩ :=
    step_applyAll hlim hr.cats hp hf hl (fun a ha => fromChart_coverings hp.distinct ha) h₁
  have hu := foldlM_induct
    (P := fun _ (s : Progress α × List String) => s.1.Sound task ∧ Later first last p₁ s.1)
    ⟨hs₁, .refl p₁⟩ (by
      rintro pre rule post ⟨p', pruned'⟩ s' hlist ⟨hs, hlat⟩ hstep
      have hmem : rule ∈ rules := ((UnaryOrder.mem_sort hr.sorted).mp (hlist ▸ by simp)).1
      obtain ⟨hs', hlat'⟩ := step_applyUnary hlim hq hr.cats hs hf hl hmem hstep
      exact ⟨hs', hlat.trans hlat'⟩) h₂
  obtain ⟨hs, hlat⟩ := step_foldl_pruneOnce hq hu.1 first last pruned (p₂.chart.cats first last)
  exact ⟨hs, hlat₁.trans (hu.2.trans hlat)⟩

end BottomUp

end Parlance
