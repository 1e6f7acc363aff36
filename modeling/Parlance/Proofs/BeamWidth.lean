import Parlance.Proofs.CoarseParse
import Parlance.Proofs.RuleLocal

/-!
# `Proofs.BeamWidth` — a span parsed with a smaller beam and with a larger one

Let scores go by rule and span. A parse with a beam of `k` is followed next to one with a larger beam, span by span.
Wherever a cell is complete, the narrow parse has the first `k` of the trees that the wide one has. A tree that the
narrow parse never finds is made of one that it has dropped; there are `k` better ones for that one, and each of them
leads to a tree that is found earlier and scores no less.

## Contents
- **Single parses.** `Orderly` and `Working`, kept by applying and by pruning.
- **A span in both parses.** `Beside`, kept by applying rules.
- **Pruning.** `Beside.pruneOnce`, and `Beside.finish`.
- **Unary rules.** `Settled`, a cell that stays as it is; `Beside.foldUnaries`.
-/

namespace Parlance

open Progress

variable {α : Type} [Score α]

/-- The task with a beam of another size, and with other numbers to sort by. -/
def Task.withBeam (task : Task α) (k : Nat) (supply : Nat → Nat) : Task α :=
  { task with beam := { task.beam with size := k }, supply }

/-- **When a smaller beam can be compared** with that of a task: both keep the best of each cell, all of them are
found, and derivations are numbered in the order in which they are made. -/
structure Task.Comparable (task : Task α) (k : Nat) (supply : Nat → Nat) : Prop where
  pos : 1 ≤ k
  le : k ≤ task.beam.size
  topK : task.beam.policy = .topK
  limit : task.limit = none
  quiet : task.beam.Quiet
  numbers : StrictMono task.supply
  numbers' : StrictMono supply

/-! ## Single parses -/

namespace Progress

variable {task : Task α} {rules : List Rule} {p q : Progress α} {first last : Nat} {l : List Application}

/-- Work on a span leaves the trees of other cells alone. -/
theorem Later.treesAt (h : Later first last p q) (hp : p.Bounded) {f l : Nat} (hn : ¬(f = first ∧ l = last))
    (c : String) : q.treesAt f l c = p.treesAt f l c :=
  treesAt_congr hp h.isPrefix (h.get f l c hn)

/-- **What a parse is at every moment between two rules.** -/
structure Orderly (task : Task α) (p : Progress α) : Prop where
  sound : p.Sound task
  numbered : p.Numbered task

theorem Orderly.applyAll (hlim : task.limit = none) (hcat : ∀ r ∈ rules, isCat r.lhs = true) (hp : p.Orderly task)
    (hf : first < last) (hl : last ≤ task.length)
    (ha : ∀ a ∈ l, BottomUp.FromChart task p.chart rules first last [] a) (h : BottomUp.applyAll task p l = .ok q) :
    q.Orderly task where
  sound := (BottomUp.step_applyAll hlim hcat hp.sound hf hl ha h).1
  numbered := hp.numbered.applyAll hlim (fun a hm => (ha a hm).fits hp.sound hf hl) h

theorem Orderly.pruneOnce (hq : task.beam.Quiet) (hp : p.Orderly task) (first last : Nat) (pruned : List String)
    (cat : String) : (BottomUp.pruneOnce first last (p, pruned) cat).1.Orderly task where
  sound := BottomUp.sound_pruneOnce hq hp.sound first last pruned cat
  numbered := BottomUp.numbered_pruneOnce (hp.sound.beam ▸ hq : p.chart.beam.Quiet) hp.numbered cat

end Progress

/-- Of the best scores, pruning keeps as many as there is room for. -/
theorem Beam.bestTrees_topK {beam : Beam α} (h : beam.policy = .topK) (l : List (DerivationTree α)) :
    beam.bestTrees l = (DerivationTree.sort l).take beam.size := by
  unfold bestTrees cutTrees
  rw [h]

namespace BottomUp

variable {task : Task α} {supply : Nat → Nat} {k : Nat} {rules unaries : List Rule} {p p' q q' : Progress α}
  {first last : Nat} {pruned : List String} {l l' : List Application} {s s' t : Progress α × List String}

/-- **A parse while a span is worked on**: the cells that were not sorted yet are in order. -/
structure Working (task : Task α) (first last : Nat) (s : Progress α × List String) : Prop where
  orderly : s.1.Orderly task
  ascending : ∀ c, c ∉ s.2 → s.1.Ascending first last c

theorem Working.pruneOnce (hq : task.beam.Quiet) (h : Working task first last s) (cat : String) :
    Working task first last (pruneOnce first last s cat) where
  orderly := h.orderly.pruneOnce hq first last s.2 cat
  ascending c hc := by
    obtain ⟨p, pruned⟩ := s
    rw [mem_pruned_pruneOnce, not_or] at hc
    unfold Ascending
    rw [get_pruneOnce_of_ne fun he => hc.1 he.2.2]
    exact h.ascending c hc.2

theorem Working.applyAll (hlim : task.limit = none) (hcat : ∀ r ∈ rules, isCat r.lhs = true)
    (h : Working task first last (p, pruned)) (hf : first < last) (hl : last ≤ task.length)
    (ha : ∀ a ∈ l, FromChart task p.chart rules first last [] a) (hrun : applyAll task p l = .ok q) :
    Working task first last (q, pruned) := by
  obtain ⟨ds, hg, -⟩ := grown_trees hlim (fun a hm => (ha a hm).fits h.orderly.sound hf hl) hrun
  exact ⟨h.orderly.applyAll hlim hcat hf hl ha hrun, fun c hc => (h.ascending c hc).grown h.orderly.sound.bounded hg⟩

/-! ## A span in both parses -/

/-- **Two parses while a span is worked on**, the second one with a beam of `k`. -/
structure Beside (k first last : Nat) (s s' : Progress α × List String) : Prop where
  pruned : s'.2 = s.2
  cats : s'.1.chart.cats first last = s.1.chart.cats first last
  fits : ∀ c, ∀ t ∈ s.1.treesAt first last c, t.IsNumber ∧ t.isAt first last c = true
  unsorted : ∀ c, c ∉ s.2 → Trimmed DerivationTree.beats k (s'.1.treesAt first last c) (s.1.treesAt first last c)
  sorted : ∀ c, c ∈ s.2 → s'.1.treesAt first last c = (s.1.treesAt first last c).take k ∧
    (s.1.treesAt first last c).Pairwise fun t u => t.trails u = false

theorem isAt_eq_of_beats {t u : DerivationTree α} (h : t.beats u = true) (f l : Nat) (c : String) :
    t.isAt f l c = u.isAt f l c := by
  obtain ⟨hf, hl, hc⟩ := DerivationTree.sameCell_iff.mp (Bool.and_eq_true_iff.mp h).1
  unfold DerivationTree.isAt
  rw [hf, hl, hc]

omit [Score α] in
theorem mem_treeCats {cats : List String} {ts : List (DerivationTree α)} {t : DerivationTree α} (ht : t ∈ ts) :
    t.label.cat ∈ treeCats t.label.first t.label.last cats ts := by
  have hkeeps : ∀ (ts : List (DerivationTree α)) (first last : Nat) (cats : List String) (c : String), c ∈ cats →
      c ∈ treeCats first last cats ts := by
    intro ts first last
    induction ts with
    | nil => exact fun cats c hc => hc
    | cons u ts ih =>
      intro cats c hc
      refine ih _ c ?_
      dsimp only
      split
      · split
        · exact hc
        · exact List.mem_append_left _ hc
      · exact hc
  induction ts generalizing cats with
  | nil => cases ht
  | cons u ts ih =>
    rcases List.mem_cons.mp ht with rfl | ht
    · refine hkeeps ts _ _ _ _ ?_
      dsimp only
      rw [if_pos ⟨rfl, rfl⟩]
      split
      case isTrue hmem => exact hmem
      case isFalse => exact List.mem_append_right _ (List.mem_singleton_self _)
    · exact ih ht

/-- Leaving out trees that are beaten leaves out no category. -/
theorem treeCats_eq_of_trimmed (hk : 1 ≤ k) (first last : Nat) (cats : List String) {ts ts' : List (DerivationTree α)}
    (h : Trimmed DerivationTree.beats k ts ts') : treeCats first last cats ts = treeCats first last cats ts' := by
  induction h with
  | nil => rfl
  | keep before t ih =>
    unfold treeCats at ih ⊢
    rw [List.foldl_append, List.foldl_append, ih]
  | @drop ts ts' t before beaten ih =>
    -- one that beats it has the same category and came before
    obtain ⟨u, hu, hbeats⟩ := List.countP_pos_iff.mp (Nat.lt_of_lt_of_le hk beaten)
    obtain ⟨hf, hl, hc⟩ := DerivationTree.sameCell_iff.mp (Bool.and_eq_true_iff.mp hbeats).1
    have hmem : u.label.cat ∈ treeCats u.label.first u.label.last cats ts' := mem_treeCats hu
    rw [hf, hl, hc] at hmem
    rw [ih]
    unfold treeCats at hmem ⊢
    rw [List.foldl_append, List.foldl_cons, List.foldl_nil]
    split
    case isTrue hspan =>
      obtain ⟨rfl, rfl⟩ := hspan
      rw [if_pos hmem]
    case isFalse => rfl

/-- **Applying rules in both parses**, if what the narrow one makes is what the wide one makes but for what is
beaten. -/
theorem Beside.applyAll (supply : Nat → Nat) (hk : 1 ≤ k) (hlim : task.limit = none)
    (h : Beside k first last (p, pruned) (p', pruned)) (hp : p.Bounded) (hp' : p'.Bounded)
    (hfit : ∀ a ∈ l, Application.Fits p a) (hfit' : ∀ a ∈ l', Application.Fits p' a)
    (hsub : l'.map (fun a => a.over p'.arena) ⊆ l.map fun a => a.over p.arena)
    (htrim : Trimmed DerivationTree.beats k ((l'.map fun a => a.over p'.arena).flatMap (Composition.trees task))
      ((l.map fun a => a.over p.arena).flatMap (Composition.trees task)))
    (hnumbers : ∀ t ∈ (l.map fun a => a.over p.arena).flatMap (Composition.trees task), t.IsNumber)
    (hnew : ∀ a ∈ l, a.rule.lhs ∉ pruned) (hrun : applyAll task p l = .ok q) :
    ∃ q', applyAll (task.withBeam k supply) p' l' = .ok q' ∧ Beside k first last (q, pruned) (q', pruned) := by
  have hlim' : (task.withBeam k supply).limit = none := hlim
  obtain ⟨hsucc, -⟩ := (applyAll_eq_ok_iff hlim hfit).mp hrun
  have hsucc' : ∀ a ∈ l', p'.Succeeds (task.withBeam k supply) a := by
    intro a' ha'
    obtain ⟨a, ha, he⟩ := List.mem_map.mp (hsub (List.mem_map_of_mem ha'))
    have hs := (succeeds_over p a).mpr (hsucc a ha)
    rw [he] at hs
    exact (succeeds_over p' a').mp hs
  obtain ⟨q', hq'⟩ : ∃ q', BottomUp.applyAll (task.withBeam k supply) p' l' = .ok q' :=
    ⟨_, (applyAll_eq_ok_iff hlim' hfit').mpr ⟨hsucc', rfl⟩⟩
  obtain ⟨ds, hg, hchildren, hds⟩ := grown_trees hlim hfit hrun
  obtain ⟨ds', hg', hchildren', hds'⟩ := grown_trees hlim' hfit' hq'
  have hds' : ds'.map (Derivation.unfold p'.arena) =
      (l'.map fun a => a.over p'.arena).flatMap (Composition.trees task) := hds'
  -- a cell has the trees from before, and then the new ones that belong there
  have hcell := hg.treesAt hp hchildren first last
  have hcell' := hg'.treesAt hp' hchildren' first last
  rw [hds] at hcell
  rw [hds'] at hcell'
  -- nothing goes into a cell that was sorted
  have hnone : ∀ c ∈ pruned, ((l.map fun a => a.over p.arena).flatMap (Composition.trees task)).filter
      (fun t => t.isAt first last c) = [] := by
    intro c hc
    refine List.filter_eq_nil_iff.mpr fun t ht hat => ?_
    obtain ⟨composition, hm, ht⟩ := List.mem_flatMap.mp ht
    obtain ⟨a, ha, rfl⟩ := List.mem_map.mp hm
    obtain ⟨hcat, -, -⟩ := Composition.isAt_of_mem_trees ht
    unfold DerivationTree.isAt at hat
    simp only [Bool.and_eq_true, beq_iff_eq] at hat
    have hlhs : a.rule.lhs = c := hcat.symm.trans hat.2
    exact hnew a ha (hlhs ▸ hc)
  refine ⟨q', hq', rfl, ?_, fun c t ht => ?_, fun c hc => ?_, fun c hc => ?_⟩
  · show q'.chart.cats first last = q.chart.cats first last
    have hcats : p'.chart.cats first last = p.chart.cats first last := h.cats
    rw [hg.cats, hg'.cats, catsWith_eq_treeCats _ _ _ ds p.arena, catsWith_eq_treeCats _ _ _ ds' p'.arena, hds, hds',
      hcats]
    exact treeCats_eq_of_trimmed hk first last _ htrim
  · have ht : t ∈ q.treesAt first last c := ht
    rw [hcell] at ht
    rcases List.mem_append.mp ht with ht | ht
    · exact h.fits c t ht
    · obtain ⟨ht, hat⟩ := List.mem_filter.mp ht
      exact ⟨hnumbers t ht, hat⟩
  · show Trimmed _ k (q'.treesAt first last c) (q.treesAt first last c)
    rw [hcell, hcell']
    exact (h.unsorted c hc).append (htrim.filter fun t u hbeats => isAt_eq_of_beats hbeats first last c)
  · have hnone' : ((l'.map fun a => a.over p'.arena).flatMap (Composition.trees task)).filter
        (fun t => t.isAt first last c) = [] :=
      List.sublist_nil.mp (hnone c hc ▸ htrim.sublist.filter _)
    show q'.treesAt first last c = (q.treesAt first last c).take k ∧ (q.treesAt first last c).Pairwise _
    rw [hcell, hcell', hnone c hc, hnone', List.append_nil, List.append_nil]
    exact h.sorted c hc

/-! ## Pruning -/

/-- **Pruning a cell in both parses** leaves the narrow one with the first `k` trees of the wide one. -/
theorem Beside.pruneOnce [Score.Exact α] (hc : task.Comparable k supply) (h : Beside k first last s s')
    (hw : Working task first last s) (hw' : Working (task.withBeam k supply) first last s') (cat : String) :
    Beside k first last (pruneOnce first last s cat) (pruneOnce first last s' cat) := by
  obtain ⟨p, pruned⟩ := s
  obtain ⟨p', pruned'⟩ := s'
  obtain rfl : pruned' = pruned := h.pruned
  have hbeam : p.chart.beam = task.beam := hw.orderly.sound.beam
  have hbeam' : p'.chart.beam = (task.withBeam k supply).beam := hw'.orderly.sound.beam
  have hquiet : p.chart.beam.Quiet := hbeam ▸ hc.quiet
  have hquiet' : p'.chart.beam.Quiet := hbeam' ▸ hc.quiet
  have hp := hw.orderly.sound.bounded
  have hp' := hw'.orderly.sound.bounded
  have hself := treesAt_pruneOnce_self hc.numbers hw.orderly.numbered hquiet hp (hw.ascending cat)
  have hself' := treesAt_pruneOnce_self hc.numbers' hw'.orderly.numbered hquiet' hp' (hw'.ascending cat)
  have hother : ∀ c, c ≠ cat →
      (BottomUp.pruneOnce first last (p, pruned') cat).1.treesAt first last c = p.treesAt first last c :=
    fun c hne => treesAt_pruneOnce_of_ne hquiet hp fun he => hne he.2.2
  have hother' : ∀ c, c ≠ cat →
      (BottomUp.pruneOnce first last (p', pruned') cat).1.treesAt first last c = p'.treesAt first last c :=
    fun c hne => treesAt_pruneOnce_of_ne hquiet' hp' fun he => hne he.2.2
  refine ⟨?_, ?_, fun c t ht => ?_, fun c hn => ?_, fun c hm => ?_⟩
  · by_cases hmem : cat ∈ pruned'
    · rw [pruneOnce_of_mem hmem, pruneOnce_of_mem hmem]
    · rw [pruneOnce_of_not_mem hmem, pruneOnce_of_not_mem hmem]
  · rw [cats_pruneOnce, cats_pruneOnce]
    exact h.cats
  · by_cases hne : c = cat
    case neg =>
      rw [hother c hne] at ht
      exact h.fits c t ht
    case pos =>
      subst hne
      rw [hself] at ht
      split at ht
      case isTrue => exact h.fits c t ht
      case isFalse =>
        rw [hbeam, Beam.bestTrees_topK hc.topK] at ht
        exact h.fits c t ((DerivationTree.sort_perm _).subset (List.mem_of_mem_take ht))
  · rw [mem_pruned_pruneOnce, not_or] at hn
    rw [hother c hn.1, hother' c hn.1]
    exact h.unsorted c hn.2
  · by_cases hne : c = cat
    case neg =>
      rw [hother c hne, hother' c hne]
      exact h.sorted c ((mem_pruned_pruneOnce.mp hm).resolve_left hne)
    case pos =>
      subst hne
      rw [hself, hself']
      by_cases hmem : c ∈ pruned'
      case pos =>
        rw [if_pos hmem, if_pos hmem]
        exact h.sorted c hmem
      case neg =>
        -- the cell is sorted now, and what was left out is not among the first `k`
        have hnumbers : ∀ t ∈ p.treesAt first last c, t.IsNumber := fun t ht => (h.fits c t ht).1
        rw [if_neg hmem, if_neg hmem, hbeam, hbeam', Beam.bestTrees_topK hc.topK,
          Beam.bestTrees_topK (show (task.withBeam k supply).beam.policy = .topK from hc.topK), List.take_take,
          Nat.min_eq_left hc.le]
        exact ⟨(h.unsorted c hmem).take_sort hnumbers,
          (DerivationTree.pairwise_sort hnumbers).sublist (List.take_sublist _ _)⟩

/-- **The end of a span in both parses**: every cell is sorted. -/
theorem Beside.finish [Score.Exact α] (hc : task.Comparable k supply) (h : Beside k first last s s')
    (hw : Working task first last s) (hw' : Working (task.withBeam k supply) first last s') (cats : List String) :
    Beside k first last (cats.foldl (BottomUp.pruneOnce first last) s)
        (cats.foldl (BottomUp.pruneOnce first last) s') ∧
      Working task first last (cats.foldl (BottomUp.pruneOnce first last) s) ∧
      Working (task.withBeam k supply) first last (cats.foldl (BottomUp.pruneOnce first last) s') := by
  have hquiet : (task.withBeam k supply).beam.Quiet := hc.quiet
  induction cats generalizing s s' with
  | nil => exact ⟨h, hw, hw'⟩
  | cons cat cats ih =>
    exact ih (h.pruneOnce hc hw hw' cat) (hw.pruneOnce hc.quiet cat) (hw'.pruneOnce hquiet cat)

/-! ## Unary rules -/

/-- **A cell that was sorted, at a later moment** of the work on its span. -/
structure Settled (task : Task α) (first last : Nat) (c : String) (s t : Progress α × List String) : Prop where
  sound : t.1.Sound task
  mem : c ∈ t.2
  trees : t.1.treesAt first last c = s.1.treesAt first last c

theorem Settled.trans {c : String} {u : Progress α × List String} (h : Settled task first last c s t)
    (h' : Settled task first last c t u) : Settled task first last c s u :=
  ⟨h'.sound, h'.mem, h'.trees.trans h.trees⟩

theorem settled_pruneOnce (hq : task.beam.Quiet) (hp : p.Sound task) {c : String} (hc : c ∈ pruned) (cat : String) :
    Settled task first last c (p, pruned) (pruneOnce first last (p, pruned) cat) := by
  refine ⟨sound_pruneOnce hq hp first last pruned cat, mem_pruned_pruneOnce.mpr (.inr hc), ?_⟩
  by_cases hne : c = cat
  case pos => rw [pruneOnce_of_mem (hne ▸ hc)]
  case neg => exact treesAt_pruneOnce_of_ne (hp.beam ▸ hq : p.chart.beam.Quiet) hp.bounded fun he => hne he.2.2

/-- Rules of other left-hand sides leave the trees of a cell alone. -/
theorem treesAt_applyAll_of_ne (hlim : task.limit = none) (hcat : ∀ r ∈ rules, isCat r.lhs = true)
    (hp : p.Sound task) (hf : first < last) (hl : last ≤ task.length)
    (ha : ∀ a ∈ l, FromChart task p.chart rules first last [] a) (h : applyAll task p l = .ok q) {c : String}
    (hne : ∀ a ∈ l, a.rule.lhs ≠ c) : q.treesAt first last c = p.treesAt first last c :=
  treesAt_congr hp.bounded (step_applyAll hlim hcat hp hf hl ha h).2.isPrefix
    (get_applyAll_of_ne hlim hp hf hl ha h hne first last)

theorem settled_applyUnary (hlim : task.limit = none) (hq : task.beam.Quiet) (hcat : ∀ r ∈ rules, isCat r.lhs = true)
    (hp : p.Sound task) (hf : first < last) (hl : last ≤ task.length) {rule : Rule} (hr : rule ∈ rules) {c : String}
    (hc : c ∈ pruned) (hne : rule.lhs ≠ c) (h : applyUnary task first last (p, pruned) rule = .ok t) :
    Settled task first last c (p, pruned) t := by
  rw [applyUnary_eq_ok_iff] at h
  split at h
  case isFalse =>
    subst h
    exact ⟨hp, hc, rfl⟩
  case isTrue hb =>
    have hpruned : Settled task first last c (p, pruned) (BottomUp.pruneOnce first last (p, pruned) rule.target) :=
      settled_pruneOnce hq hp hc rule.target
    have hfrom := fun a ha => fromChart_unary
      (p := (BottomUp.pruneOnce first last (p, pruned) rule.target).1) hr hb (a := a) ha
    refine hpruned.trans ⟨(step_applyAll hlim hcat hpruned.sound hf hl hfrom h.1).1, h.2 ▸ hpruned.mem, ?_⟩
    exact treesAt_applyAll_of_ne hlim hcat hpruned.sound hf hl hfrom h.1 fun a ha => rule_of_mem_takes ha ▸ hne

/-- **A sorted cell stays as it is** to the end of its span, if no later rule adds to it. -/
theorem settled_rest (hlim : task.limit = none) (hq : task.beam.Quiet) (hcat : ∀ r ∈ rules, isCat r.lhs = true)
    (hs : s.1.Sound task) (hf : first < last) (hl : last ≤ task.length) {post : List Rule}
    (hpost : ∀ r ∈ post, r ∈ rules) {c : String} (hc : c ∈ s.2) (hne : ∀ r ∈ post, r.lhs ≠ c)
    (h : post.foldlM (applyUnary task first last) s = .ok t) (cats : List String) :
    Settled task first last c s (cats.foldl (pruneOnce first last) t) := by
  have hrules := foldlM_induct (P := fun _ t => Settled task first last c s t) ⟨hs, hc, rfl⟩ (by
    rintro pre rule post' ⟨p, pruned⟩ u hlist hsettled hstep
    have hmem : rule ∈ post := hlist ▸ by simp
    exact hsettled.trans (settled_applyUnary hlim hq hcat hsettled.sound hf hl (hpost rule hmem) hsettled.mem
      (hne rule hmem) hstep)) h
  refine foldl_induct (P := fun _ t => Settled task first last c s t) cats t hrules ?_
  rintro _ cat _ ⟨p, pruned⟩ _ hsettled
  exact hsettled.trans (settled_pruneOnce hq hsettled.sound hsettled.mem cat)

/-- What a unary rule makes of a tree, it makes a better one of a better tree of the same cell. -/
theorem trimmed_takes [Score.Exact α] {ts : List (DerivationTree α)} {rule : Rule} {c : String}
    (hfits : ∀ t ∈ ts, t.IsNumber ∧ t.isAt first last c = true) (hsorted : ts.Pairwise fun t u => t.trails u = false)
    (hlocal : Composition.RuleLocal task (ts.map fun t => ⟨rule, first, last, [t]⟩)) :
    Trimmed DerivationTree.beats k
      (((ts.take k).map fun t => ⟨rule, first, last, [t]⟩).flatMap (Composition.trees task))
      ((ts.map fun t => ⟨rule, first, last, [t]⟩).flatMap (Composition.trees task)) := by
  rw [List.flatMap_map, List.flatMap_map]
  refine .flatMap_take (fun t _ => .refl _) (hsorted.imp_of_mem fun {t u} ht hu hbetter b hb => ?_)
  have hmem : ∀ v ∈ ts, (⟨rule, first, last, [v]⟩ : Composition α) ∈ ts.map fun t => ⟨rule, first, last, [t]⟩ :=
    fun v hv => List.mem_map_of_mem hv
  have hcell := sameCell_of_isAt (hfits t ht).2 (hfits u hu).2
  refine Composition.exists_beats (c := ⟨rule, first, last, [t]⟩) hb rfl rfl rfl
    (hlocal.same _ (hmem t ht) _ (hmem u hu) rfl rfl rfl (.cons hcell .nil)) (hlocal.numbers _ (hmem u hu))
    (fun v hv => ?_) (fun v hv => ?_) (.cons hbetter .nil)
  · rw [List.mem_singleton.mp hv]
    exact (hfits t ht).1
  · rw [List.mem_singleton.mp hv]
    exact (hfits u hu).1

/-- **A unary rule that both parses use**, on a cell that both have sorted. -/
theorem Beside.take [Score.Exact α] (hc : task.Comparable k supply) (hcat : ∀ r ∈ rules, isCat r.lhs = true)
    (hf : first < last) (hl : last ≤ task.length) {rule : Rule} (hr : rule ∈ rules)
    (hb : task.canBuild rule first last = true) (hlater : rule.lhs ∉ pruned) (hmem : rule.target ∈ pruned)
    (h : Beside k first last (p, pruned) (p', pruned)) (hw : Working task first last (p, pruned))
    (hw' : Working (task.withBeam k supply) first last (p', pruned))
    (hlocal : Composition.RuleLocal task
      ((p.treesAt first last rule.target).map fun t => ⟨rule, first, last, [t]⟩))
    (hrun : BottomUp.applyAll task p (takes p.chart first last rule) = .ok q) :
    ∃ q', BottomUp.applyAll (task.withBeam k supply) p' (takes p'.chart first last rule) = .ok q' ∧
      Beside k first last (q, pruned) (q', pruned) ∧ Working task first last (q, pruned) ∧
      Working (task.withBeam k supply) first last (q', pruned) := by
  have hlim : (task.withBeam k supply).limit = none := hc.limit
  have hb' : (task.withBeam k supply).canBuild rule first last = true := hb
  obtain ⟨hcell, hsorted⟩ := h.sorted rule.target hmem
  have hfits : ∀ t ∈ p.treesAt first last rule.target, t.IsNumber ∧ t.isAt first last rule.target = true :=
    h.fits rule.target
  have hfrom : ∀ a ∈ takes p.chart first last rule, FromChart task p.chart rules first last [] a :=
    fun a ha => fromChart_unary hr hb ha
  have hfrom' : ∀ a ∈ takes p'.chart first last rule,
      FromChart (task.withBeam k supply) p'.chart rules first last [] a := fun a ha => fromChart_unary hr hb' ha
  have hfit : ∀ a ∈ takes p.chart first last rule, Application.Fits p a := fun a ha =>
    (hfrom a ha).fits hw.orderly.sound hf hl
  have hfit' : ∀ a ∈ takes p'.chart first last rule, Application.Fits p' a := fun a ha =>
    (hfrom' a ha).fits hw'.orderly.sound hf hl
  have hmap := map_over_takes p rule first last
  have hmap' := map_over_takes p' rule first last
  rw [show p'.treesAt first last rule.target = (p.treesAt first last rule.target).take k from hcell] at hmap'
  obtain ⟨q', hrun', hnext⟩ := h.applyAll supply hc.pos hc.limit hw.orderly.sound.bounded
    hw'.orderly.sound.bounded hfit hfit'
    (by
      rw [hmap, hmap']
      exact List.map_subset _ (List.take_subset _ _))
    (by
      rw [hmap, hmap']
      exact trimmed_takes hfits hsorted hlocal)
    (by
      rw [hmap]
      intro u hu
      obtain ⟨c, hm, hu⟩ := List.mem_flatMap.mp hu
      refine Composition.isNumber_of_mem_trees (hlocal.numbers c hm) ?_ hu
      obtain ⟨t, ht, rfl⟩ := List.mem_map.mp hm
      exact List.forall_mem_singleton.mpr (hfits t ht).1)
    (fun a ha => rule_of_mem_takes ha ▸ hlater) hrun
  exact ⟨q', hrun', hnext, hw.applyAll hc.limit hcat hf hl hfrom hrun, hw'.applyAll hlim hcat hf hl hfrom' hrun'⟩

/-- **A unary rule in both parses**, if scores go by rule and span for the cell that it takes. -/
theorem Beside.applyUnary [Score.Exact α] (hc : task.Comparable k supply)
    (hcat : ∀ r ∈ rules, isCat r.lhs = true) (hf : first < last) (hl : last ≤ task.length) {rule : Rule}
    (hr : rule ∈ rules) (hself : rule.lhs ≠ rule.target) (hlater : rule.lhs ∉ s.2) (h : Beside k first last s s')
    (hw : Working task first last s) (hw' : Working (task.withBeam k supply) first last s')
    (ht : BottomUp.applyUnary task first last s rule = .ok t)
    (hlocal : task.canBuild rule first last = true → Composition.RuleLocal task
      ((t.1.treesAt first last rule.target).map fun u => ⟨rule, first, last, [u]⟩)) :
    ∃ t', BottomUp.applyUnary (task.withBeam k supply) first last s' rule = .ok t' ∧ Beside k first last t t' ∧
      Working task first last t ∧ Working (task.withBeam k supply) first last t' ∧
      ∀ c ∈ t.2, c ∈ s.2 ∨ c = rule.target := by
  obtain ⟨p, pruned⟩ := s
  obtain ⟨p', pruned'⟩ := s'
  have hquiet : (task.withBeam k supply).beam.Quiet := hc.quiet
  have hbuild : (task.withBeam k supply).canBuild rule first last = task.canBuild rule first last := rfl
  rw [applyUnary_eq_ok_iff] at ht
  cases hb : task.canBuild rule first last with
  | false =>
    rw [hb, if_neg Bool.false_ne_true] at ht
    refine ⟨(p', pruned'), ?_, ht ▸ h, ht ▸ hw, hw', fun c hm => .inl (ht ▸ hm)⟩
    rw [applyUnary_eq_ok_iff, hbuild, hb, if_neg Bool.false_ne_true]
  | true =>
    rw [hb, if_pos rfl] at ht
    obtain ⟨happ, hpruned⟩ := ht
    -- both parses sort the cell that the rule takes
    have hbeside := h.pruneOnce hc hw hw' rule.target
    have hopen := hw.pruneOnce hc.quiet rule.target
    have hopen' := hw'.pruneOnce hquiet rule.target
    have hmem : ∀ c, c ∈ (BottomUp.pruneOnce first last (p, pruned) rule.target).2 ↔ c = rule.target ∨ c ∈ pruned :=
      fun c => mem_pruned_pruneOnce
    generalize BottomUp.pruneOnce first last (p, pruned) rule.target = r at *
    generalize hr' : BottomUp.pruneOnce first last (p', pruned') rule.target = r' at *
    obtain ⟨r, sorted⟩ := r
    obtain ⟨r', sorted'⟩ := r'
    obtain ⟨q, sorted''⟩ := t
    obtain rfl : sorted'' = sorted := hpruned
    obtain rfl : sorted' = sorted'' := hbeside.pruned
    -- and the rule adds nothing to that cell
    have hlocal := hlocal hb
    rw [show q.treesAt first last rule.target = r.treesAt first last rule.target from
      treesAt_applyAll_of_ne hc.limit hcat hopen.orderly.sound hf hl (fun a ha => fromChart_unary hr hb ha) happ
        fun a ha => rule_of_mem_takes ha ▸ hself] at hlocal
    obtain ⟨q', hrun, hnext, hdone, hdone'⟩ := hbeside.take hc hcat hf hl hr hb
      (fun hm => ((hmem _).mp hm).elim hself hlater) ((hmem _).mpr (.inl rfl)) hopen hopen' hlocal happ
    refine ⟨(q', sorted'), ?_, hnext, hdone, hdone', fun c hm => ((hmem c).mp hm).symm⟩
    rw [applyUnary_eq_ok_iff, hbuild, hb, if_pos rfl, hr']
    exact ⟨hrun, rfl⟩

theorem target_mem_of_applyUnary {rule : Rule} (hb : task.canBuild rule first last = true)
    (h : applyUnary task first last (p, pruned) rule = .ok t) : rule.target ∈ t.2 := by
  rw [applyUnary_eq_ok_iff, if_pos hb] at h
  rw [h.2]
  exact mem_pruned_pruneOnce.mpr (.inl rfl)

/-- **The unary rules in both parses**, one after the other, if scores go by rule and span once the span is built. -/
theorem Beside.foldUnaries [Score.Exact α] (hc : task.Comparable k supply)
    (hready : Ready rules unaries) (hf : first < last) (hl : last ≤ task.length)
    (h : Beside k first last (p, []) (p', [])) (hw : Working task first last (p, []))
    (hw' : Working (task.withBeam k supply) first last (p', [])) (cats : List String)
    (hrun : unaries.foldlM (BottomUp.applyUnary task first last) (p, []) = .ok t)
    (hlocal : ∀ r ∈ rules, r.isCatUnary = true → task.canBuild r first last = true → Composition.RuleLocal task
      (((cats.foldl (BottomUp.pruneOnce first last) t).1.treesAt first last r.target).map
        fun t => ⟨r, first, last, [t]⟩)) :
    ∃ t', unaries.foldlM (BottomUp.applyUnary (task.withBeam k supply) first last) (p', []) = .ok t' ∧
      Beside k first last t t' ∧ Working task first last t ∧ Working (task.withBeam k supply) first last t' := by
  obtain ⟨t', hrun', hbeside, hwt, hwt', -⟩ := foldlM_lockstep_rest
    (R := fun pre (s s' : Progress α × List String) => Beside k first last s s' ∧ Working task first last s ∧
      Working (task.withBeam k supply) first last s' ∧ ∀ c ∈ s.2, ∃ r ∈ pre, r.target = c)
    (g := BottomUp.applyUnary (task.withBeam k supply) first last)
    ⟨h, hw, hw', fun c hm => absurd hm List.not_mem_nil⟩ (by
      rintro pre rule post s s' u hlist ⟨hbeside, hws, hws', hpre⟩ hstep hrest
      have hmem : rule ∈ unaries := hlist ▸ by simp
      obtain ⟨hr, hunit⟩ := (UnaryOrder.mem_sort hready.sorted).mp hmem
      have horder := UnaryOrder.pairwise_sort hready.sorted
      rw [hlist] at horder
      obtain ⟨-, hbehind, hbefore⟩ := List.pairwise_append.mp horder
      have hlater : rule.lhs ∉ s.2 := fun hin => by
        obtain ⟨r, hr', he⟩ := hpre _ hin
        exact hbefore r hr' rule List.mem_cons_self he.symm
      have hpost : ∀ r ∈ post, r ∈ rules := fun r hr' =>
        ((UnaryOrder.mem_sort hready.sorted).mp (hlist ▸ by simp [hr'])).1
      have hsound : u.1.Sound task := (step_applyUnary hc.limit hc.quiet hready.cats hws.orderly.sound hf hl hr hstep).1
      obtain ⟨u', hstep', hbeside', hwu, hwu', hsub⟩ := hbeside.applyUnary hc hready.cats hf hl
        hr (UnaryOrder.lhs_ne_target_of_sort hready.sorted hmem) hlater hws hws' hstep fun hb => by
          -- no rule behind this one adds to the cell that it takes
          have hsettled := settled_rest hc.limit hc.quiet hready.cats hsound hf hl hpost
            (target_mem_of_applyUnary hb hstep) (fun r hr' => (List.pairwise_cons.mp hbehind).1 r hr') hrest cats
          rw [← hsettled.trees]
          exact hlocal rule hr hunit hb
      refine ⟨u', hstep', hbeside', hwu, hwu', fun c hin => ?_⟩
      rcases hsub c hin with hin | rfl
      · obtain ⟨r, hr', he⟩ := hpre c hin
        exact ⟨r, List.mem_append_left _ hr', he⟩
      · exact ⟨rule, List.mem_append_right _ List.mem_cons_self, rfl⟩) hrun
  exact ⟨t', hrun', hbeside, hwt, hwt'⟩

end BottomUp

end Parlance
