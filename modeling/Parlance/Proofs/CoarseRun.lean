import Parlance.Parse.Parser
import Parlance.Proofs.CoarseCover

/-!
# `Proofs.CoarseRun` — a coarse chart changes no prediction

A parse that goes by a coarse chart is followed by one that does not, step by step. Both hold the same trees in the
same order wherever a category is kept. The unary rules need care: a rule of which the left-hand side is not kept
makes the full parse sort a cell earlier than the other one does. No later rule adds to that cell, so that the other
parse finds the same derivations in it when it sorts it itself.

## Contents
- **Single parses.** `Tracked`, kept by applying and by pruning.
- **Putting in.** `Joint`, what the two parses put in.
- **Unary rules.** `Midway`, which relates the parses while the unary rules are applied.
- **Spans and texts.** `buildSpan_agree`, `run_agree`.
- **Parsers.** `Parser.parse_coarse`.
-/

namespace Parlance

open Progress

variable {α : Type} [Score α]

/-! ## Single parses -/

namespace Progress

variable {found : CoarseChart} {task : Task α} {p q : Progress α} {first last : Nat} {rules : List Rule}
  {l : List Application}

/-- Applying rules keeps derivations in order. -/
theorem Numbered.applyAll (hlim : task.limit = none) (hfit : ∀ a ∈ l, Application.Fits p a)
    (hn : p.Numbered task) (h : BottomUp.applyAll task p l = .ok q) : q.Numbered task := by
  obtain ⟨hg, hmade⟩ := BottomUp.grown_applyAll hlim hfit h
  unfold Numbered at hn ⊢
  have hcreated : ((p.derivations task (p.outputs task l) p.made).map Derivation.bare).map
      Derivation.created = (p.derivations task (p.outputs task l) p.made).map Derivation.created := by
    rw [List.map_map]
    rfl
  rw [hg.bares, hmade, List.map_append, hcreated, List.range_add, List.map_append,
    ← List.range'_eq_map_range]
  exact hn.append (created_derivations p _ _)

/-- What is put in belongs to the rules that are applied. -/
theorem exists_application {ds : List (Derivation α)}
    (hds : ds.map (Derivation.unfold p.arena) = (l.map fun a => a.over p.arena).flatMap (Composition.trees task))
    {d : Derivation α} (hd : d ∈ ds) :
    ∃ a ∈ l, d.cat = a.rule.lhs ∧ d.first = a.first ∧ d.last = a.last := by
  have hmem : d.unfold p.arena ∈ (l.map fun a => a.over p.arena).flatMap (Composition.trees task) :=
    hds ▸ List.mem_map_of_mem hd
  obtain ⟨c, hc, ht⟩ := List.mem_flatMap.mp hmem
  obtain ⟨a, ha, rfl⟩ := List.mem_map.mp hc
  exact ⟨a, ha, Composition.isAt_of_mem_trees ht⟩

/-- **Applying rules of which the left-hand sides are found.** -/
theorem Tracked.applyAll (hlim : task.limit = none) (hcat : ∀ r ∈ rules, isCat r.lhs = true)
    (hp : p.Tracked found task) (hf : first < last) (hl : last ≤ task.length)
    (ha : ∀ a ∈ l, BottomUp.FromChart task p.chart rules first last [] a)
    (hfound : ∀ a ∈ l, found.allows a.rule.lhs first last = true)
    (h : BottomUp.applyAll task p l = .ok q) : q.Tracked found task := by
  have hfit : ∀ a ∈ l, Application.Fits p a := fun a hm => (ha a hm).fits hp.sound hf hl
  refine ⟨(BottomUp.step_applyAll hlim hcat hp.sound hf hl ha h).1, hp.numbered.applyAll hlim hfit h, ?_⟩
  obtain ⟨ds, hg, -, hds⟩ := grown_trees hlim hfit h
  intro f l c hc
  rw [hg.cats, mem_catsWith] at hc
  rcases hc with hc | ⟨d, hd, hat⟩
  · exact hp.found f l c hc
  · obtain ⟨a, hm, h1, h2, h3⟩ := exists_application hds hd
    obtain ⟨rfl, rfl, rfl⟩ := Derivation.isAt_iff.mp hat
    rw [h1, h2, h3, (ha a hm).first, (ha a hm).last]
    exact hfound a hm

theorem Tracked.pruneOnce (hq : task.beam.Quiet) (hp : p.Tracked found task) (first last : Nat)
    (pruned : List String) (cat : String) :
    (BottomUp.pruneOnce first last (p, pruned) cat).1.Tracked found task where
  sound := BottomUp.sound_pruneOnce hq hp.sound first last pruned cat
  numbered := BottomUp.numbered_pruneOnce (hp.sound.beam ▸ hq : p.chart.beam.Quiet) hp.numbered cat
  found f l c hc := hp.found f l c (by rwa [BottomUp.cats_pruneOnce] at hc)

end Progress

/-! ## Putting in -/

variable {kept : CoarseChart} {p p' q q' : Progress α} {ds ds' : List (Derivation α)}

/-- Whether a tree belongs to a category that is kept over its span. -/
def DerivationTree.isKept (kept : CoarseChart) (t : DerivationTree α) : Bool :=
  kept.allows t.label.cat t.label.first t.label.last

/-- **What two parses put in together**: the second one puts in what is kept of what the first one puts in. -/
structure Joint (kept : CoarseChart) (p p' : Progress α) (ds ds' : List (Derivation α)) (q q' : Progress α) :
    Prop where
  grown : Grown p ds q
  grown' : Grown p' ds' q'
  children : ∀ d ∈ ds, ∀ c ∈ d.children, c < p.arena.size
  children' : ∀ d ∈ ds', ∀ c ∈ d.children, c < p'.arena.size
  trees : (ds.map (Derivation.unfold p.arena)).filter (DerivationTree.isKept kept) =
    ds'.map (Derivation.unfold p'.arena)

/-- The categories of a cell after trees were put in. -/
def treeCats (first last : Nat) (cats : List String) (ts : List (DerivationTree α)) : List String :=
  ts.foldl
    (fun cats t =>
      if t.label.first = first ∧ t.label.last = last then
        (if t.label.cat ∈ cats then cats else cats ++ [t.label.cat])
      else cats)
    cats

omit [Score α] in
/-- Trees that are not kept make no difference to the order of the categories that are. -/
theorem filter_treeCats (kept : CoarseChart) (first last : Nat) (cats : List String)
    (ts : List (DerivationTree α)) :
    (treeCats first last cats ts).filter (fun c => kept.allows c first last) =
      treeCats first last (cats.filter fun c => kept.allows c first last)
        (ts.filter (DerivationTree.isKept kept)) := by
  induction ts generalizing cats with
  | nil => rfl
  | cons t ts ih =>
    rw [treeCats, List.foldl_cons, ← treeCats, ih, List.filter_cons]
    by_cases hs : t.label.first = first ∧ t.label.last = last
    · rw [if_pos hs]
      have hkept : t.isKept kept = kept.allows t.label.cat first last := by
        unfold DerivationTree.isKept
        rw [hs.1, hs.2]
      rw [hkept]
      cases hk : kept.allows t.label.cat first last with
      | true =>
        rw [if_pos rfl, treeCats, treeCats, List.foldl_cons, if_pos hs]
        congr 1
        by_cases hc : t.label.cat ∈ cats
        · have hc' : t.label.cat ∈ cats.filter fun c => kept.allows c first last :=
            List.mem_filter.mpr ⟨hc, hk⟩
          rw [if_pos hc, if_pos hc']
        · rw [if_neg hc, if_neg fun h => hc (List.mem_filter.mp h).1, List.filter_append]
          simp [hk]
      | false =>
        rw [if_neg Bool.false_ne_true]
        congr 1
        split
        · rfl
        · rw [List.filter_append]
          simp [hk]
    · rw [if_neg hs]
      split
      · rw [treeCats, treeCats, List.foldl_cons, if_neg hs]
      · rfl

theorem catsWith_eq_treeCats (first last : Nat) (cats : List String) (ds : List (Derivation α))
    (arena : Arena α) :
    catsWith first last cats ds = treeCats first last cats (ds.map (Derivation.unfold arena)) := by
  unfold catsWith treeCats
  rw [List.foldl_map]
  rfl

/-- The order of the categories that are kept stays the same. -/
theorem Joint.cats (h : Joint kept p p' ds ds' q q') {f l : Nat}
    (hc : (p.chart.cats f l).filter (fun c => kept.allows c f l) =
      (p'.chart.cats f l).filter fun c => kept.allows c f l) :
    (q.chart.cats f l).filter (fun c => kept.allows c f l) =
      (q'.chart.cats f l).filter fun c => kept.allows c f l := by
  have hkept : ds'.map (Derivation.unfold p'.arena) =
      (ds'.map (Derivation.unfold p'.arena)).filter (DerivationTree.isKept kept) := by
    rw [← h.trees, List.filter_filter]
    simp only [Bool.and_self]
  rw [h.grown.cats, h.grown'.cats, catsWith_eq_treeCats f l _ ds p.arena,
    catsWith_eq_treeCats f l _ ds' p'.arena, filter_treeCats, filter_treeCats, hc, ← hkept, h.trees]

/-- A cell of a category that is kept gets the same trees in both parses. -/
theorem Joint.treesAt (h : Joint kept p p' ds ds' q q') (hp : p.Bounded) (hp' : p'.Bounded) {f l : Nat}
    {c : String} (hc : kept.allows c f l = true) :
    ∃ ts, q.treesAt f l c = p.treesAt f l c ++ ts ∧ q'.treesAt f l c = p'.treesAt f l c ++ ts ∧
      ∀ t ∈ ts, ∃ d ∈ ds, d.cat = c ∧ d.first = f ∧ d.last = l := by
  refine ⟨_, h.grown.treesAt hp h.children f l c, ?_, ?_⟩
  · rw [h.grown'.treesAt hp' h.children' f l c, ← h.trees, List.filter_filter]
    congr 1
    refine List.filter_congr fun t _ => ?_
    cases hat : t.isAt f l c with
    | false => rfl
    | true =>
      unfold DerivationTree.isAt at hat
      simp only [Bool.and_eq_true, beq_iff_eq] at hat
      unfold DerivationTree.isKept
      rw [hat.1.1, hat.1.2, hat.2, hc]
      rfl
  · intro t ht
    obtain ⟨hm, hat⟩ := List.mem_filter.mp ht
    obtain ⟨d, hd, rfl⟩ := List.mem_map.mp hm
    unfold DerivationTree.isAt at hat
    simp only [Bool.and_eq_true, beq_iff_eq] at hat
    exact ⟨d, hd, hat.2, hat.1.1, hat.1.2⟩

/-- **Parses that agree put in what they agree on.** -/
theorem Agree.joint (hagree : Agree kept p p') (hp : p.Bounded) (hp' : p'.Bounded)
    (h : Joint kept p p' ds ds' q q') : Agree kept q q' where
  cats f l := h.cats (hagree.cats f l)
  trees f l c hc := by
    obtain ⟨ts, h1, h2, -⟩ := h.treesAt hp hp' hc
    rw [h1, h2, hagree.trees f l c hc]

namespace BottomUp

variable {found : CoarseChart} {task : Task α} {supply : Nat → Nat} {first last : Nat} {rules : List Rule}
  {l l' : List Application}

/-- **Applying rules in both parses.** If the second parse has those applications of the first one of which the
left-hand side is kept, it succeeds where the first one does. -/
theorem applyAll_joint (supply : Nat → Nat) (hlim : task.limit = none)
    (hviews : keptViews kept first last p.arena l = l'.map fun a => a.over p'.arena)
    (hspan : ∀ a ∈ l, a.first = first ∧ a.last = last)
    (hfit : ∀ a ∈ l, Application.Fits p a) (hfit' : ∀ a ∈ l', Application.Fits p' a)
    (h : applyAll task p l = .ok q) :
    ∃ q' ds ds', applyAll (task.prunedBy kept supply) p' l' = .ok q' ∧ Joint kept p p' ds ds' q q' ∧
      ∀ d ∈ ds, ∃ a ∈ l, d.cat = a.rule.lhs ∧ d.first = first ∧ d.last = last := by
  have hlim' : (task.prunedBy kept supply).limit = none := hlim
  obtain ⟨hsucc, -⟩ := (applyAll_eq_ok_iff hlim hfit).mp h
  -- every application of the second parse is one of the first
  have hsucc' : ∀ a ∈ l', p'.Succeeds (task.prunedBy kept supply) a := fun a' ha' => by
    have hmem : a'.over p'.arena ∈ keptViews kept first last p.arena l := hviews ▸ List.mem_map_of_mem ha'
    obtain ⟨a, ha, he⟩ := List.mem_map.mp hmem
    have hs := (succeeds_over p a).mpr (hsucc a (List.mem_filter.mp ha).1)
    rw [he] at hs
    exact (succeeds_over p' a').mp hs
  obtain ⟨q', hq'⟩ : ∃ q', applyAll (task.prunedBy kept supply) p' l' = .ok q' :=
    ⟨_, (applyAll_eq_ok_iff hlim' hfit').mpr ⟨hsucc', rfl⟩⟩
  obtain ⟨ds, hg, hchildren, hds⟩ := grown_trees hlim hfit h
  obtain ⟨ds', hg', hchildren', hds'⟩ := grown_trees hlim' hfit' hq'
  refine ⟨q', ds, ds', hq', ⟨hg, hg', hchildren, hchildren', ?_⟩, fun d hd => ?_⟩
  · rw [hds, hds', ← hviews, List.filter_flatMap]
    unfold keptViews
    rw [List.flatMap_map, List.flatMap_map]
    -- what is not kept of the first parse is all that some of its applications make
    rw [flatMap_eq_flatMap_filter fun a => kept.allows a.rule.lhs first last]
    · refine List.flatMap_congr fun a ha => ?_
      obtain ⟨ha, hk⟩ := List.mem_filter.mp ha
      refine List.filter_eq_self.mpr fun t ht => ?_
      obtain ⟨h1, h2, h3⟩ := Composition.isAt_of_mem_trees ht
      unfold DerivationTree.isKept
      rw [h1, h2, h3]
      show kept.allows a.rule.lhs a.first a.last = true
      rw [(hspan a ha).1, (hspan a ha).2, hk]
    · intro a ha hk
      refine List.filter_eq_nil_iff.mpr fun t ht => ?_
      obtain ⟨h1, h2, h3⟩ := Composition.isAt_of_mem_trees ht
      unfold DerivationTree.isKept
      rw [h1, h2, h3]
      show ¬ kept.allows a.rule.lhs a.first a.last = true
      rw [(hspan a ha).1, (hspan a ha).2, hk]
      exact Bool.false_ne_true
  · obtain ⟨a, ha, h1, h2, h3⟩ := exists_application hds hd
    exact ⟨a, ha, h1, h2.trans (hspan a ha).1, h3.trans (hspan a ha).2⟩

/-! ## Unary rules -/

/-- **A parse while a span is worked on**: the cells over the span that were not sorted yet are in order. -/
structure Open (found : CoarseChart) (task : Task α) (first last : Nat) (s : Progress α × List String) : Prop where
  tracked : s.1.Tracked found task
  ascending : ∀ c, c ∉ s.2 → s.1.Ascending first last c

theorem Open.pruneOnce {s : Progress α × List String} (hq : task.beam.Quiet) (h : Open found task first last s)
    (cat : String) : Open found task first last (pruneOnce first last s cat) where
  tracked := h.tracked.pruneOnce hq first last s.2 cat
  ascending c hc := by
    obtain ⟨p, pruned⟩ := s
    rw [mem_pruned_pruneOnce, not_or] at hc
    unfold Ascending
    rw [get_pruneOnce_of_ne fun he => hc.1 he.2.2]
    exact h.ascending c hc.2

omit [Score α] in
theorem Open.grown {pruned : List String} (h : Open found task first last (p, pruned))
    (hq : q.Tracked found task) (hg : Grown p ds q) : Open found task first last (q, pruned) :=
  ⟨hq, fun c hc => (h.ascending c hc).grown h.tracked.sound.bounded hg⟩

/-- **Two parses while a span is worked on.** They agree on the cells over the span that the first one has not
sorted yet; of the others, the second parse may still have to sort some, and then has what the first one has. -/
structure Midway (kept : CoarseChart) (beam : Beam α) (first last : Nat) (s s' : Progress α × List String) :
    Prop where
  cats : ∀ f l, (s.1.chart.cats f l).filter (fun c => kept.allows c f l) =
    (s'.1.chart.cats f l).filter fun c => kept.allows c f l
  elsewhere : ∀ f l c, ¬(f = first ∧ l = last) → kept.allows c f l = true →
    s.1.treesAt f l c = s'.1.treesAt f l c
  unsorted : ∀ c, kept.allows c first last = true → c ∉ s.2 →
    s.1.treesAt first last c = s'.1.treesAt first last c
  sorted : ∀ c, kept.allows c first last = true → c ∈ s.2 →
    s.1.treesAt first last c =
      if c ∈ s'.2 then s'.1.treesAt first last c else beam.bestTrees (s'.1.treesAt first last c)
  subset : ∀ c, kept.allows c first last = true → c ∈ s'.2 → c ∈ s.2

theorem Agree.midway (h : Agree kept p p') (beam : Beam α) (first last : Nat) :
    Midway kept beam first last (p, []) (p', []) where
  cats := h.cats
  elsewhere f l c _ hc := h.trees f l c hc
  unsorted c hc _ := h.trees first last c hc
  sorted _ _ hm := nomatch hm
  subset _ _ hm := nomatch hm

variable {s s' : Progress α × List String}

/-- The first parse sorts a cell. -/
theorem Midway.pruneLeft (h : Midway kept task.beam first last s s') (hq : task.beam.Quiet)
    (hs : StrictMono task.supply) (ho : Open found task first last s) (cat : String) :
    Midway kept task.beam first last (pruneOnce first last s cat) s' := by
  obtain ⟨p, pruned⟩ := s
  have hbeam : p.chart.beam = task.beam := ho.tracked.sound.beam
  have hquiet : p.chart.beam.Quiet := hbeam ▸ hq
  have hp := ho.tracked.sound.bounded
  refine ⟨fun f l => by rw [cats_pruneOnce]; exact h.cats f l, ?_, ?_, ?_, ?_⟩
  · intro f l c hn hc
    rw [treesAt_pruneOnce_of_ne hquiet hp fun he => hn ⟨he.1, he.2.1⟩]
    exact h.elsewhere f l c hn hc
  · intro c hc hn
    rw [mem_pruned_pruneOnce, not_or] at hn
    rw [treesAt_pruneOnce_of_ne hquiet hp fun he => hn.1 he.2.2]
    exact h.unsorted c hc hn.2
  · intro c hc hm
    by_cases he : c = cat
    · subst he
      rw [treesAt_pruneOnce_self hs ho.tracked.numbered hquiet hp (ho.ascending c), hbeam]
      by_cases hpr : c ∈ pruned
      · rw [if_pos hpr]
        exact h.sorted c hc hpr
      · rw [if_neg hpr, if_neg fun hm' => hpr (h.subset c hc hm'), ← h.unsorted c hc hpr]
    · rw [treesAt_pruneOnce_of_ne hquiet hp fun h' => he h'.2.2]
      exact h.sorted c hc ((mem_pruned_pruneOnce.mp hm).resolve_left he)
  · intro c hc hm
    exact mem_pruned_pruneOnce.mpr (Or.inr (h.subset c hc hm))

/-- The second parse sorts a cell that the first one has sorted. -/
theorem Midway.pruneRight (h : Midway kept task.beam first last s s') (hq : task.beam.Quiet)
    (hs : StrictMono supply) (ho : Open found (task.prunedBy kept supply) first last s') {cat : String}
    (hcat : kept.allows cat first last = true → cat ∈ s.2) :
    Midway kept task.beam first last s (pruneOnce first last s' cat) := by
  obtain ⟨p', pruned'⟩ := s'
  have hbeam : p'.chart.beam = task.beam := ho.tracked.sound.beam
  have hquiet : p'.chart.beam.Quiet := hbeam ▸ hq
  have hp := ho.tracked.sound.bounded
  have hs' : StrictMono (task.prunedBy kept supply).supply := hs
  refine ⟨fun f l => by rw [cats_pruneOnce]; exact h.cats f l, ?_, ?_, ?_, ?_⟩
  · intro f l c hn hc
    rw [treesAt_pruneOnce_of_ne hquiet hp fun he => hn ⟨he.1, he.2.1⟩]
    exact h.elsewhere f l c hn hc
  · intro c hc hn
    have hne : c ≠ cat := fun he => hn (by
      subst he
      exact hcat hc)
    rw [treesAt_pruneOnce_of_ne hquiet hp fun he => hne he.2.2]
    exact h.unsorted c hc hn
  · intro c hc hm
    rw [h.sorted c hc hm]
    by_cases he : c = cat
    · subst he
      rw [treesAt_pruneOnce_self hs' ho.tracked.numbered hquiet hp (ho.ascending c), hbeam,
        if_pos (mem_pruned_pruneOnce.mpr (Or.inl rfl))]
    · rw [treesAt_pruneOnce_of_ne hquiet hp fun h' => he h'.2.2]
      by_cases hpr : c ∈ pruned'
      · rw [if_pos hpr, if_pos (mem_pruned_pruneOnce.mpr (Or.inr hpr))]
      · rw [if_neg hpr, if_neg fun hm' => hpr ((mem_pruned_pruneOnce.mp hm').resolve_left he)]
  · intro c hc hm
    rcases mem_pruned_pruneOnce.mp hm with rfl | hm
    · exact hcat hc
    · exact h.subset c hc hm

/-- The parses put in what belongs to a category that was not sorted yet. -/
theorem Midway.joint {beam : Beam α} {pruned pruned' : List String}
    (h : Midway kept beam first last (p, pruned) (p', pruned')) (hp : p.Bounded) (hp' : p'.Bounded)
    (hj : Joint kept p p' ds ds' q q')
    (hds : ∀ d ∈ ds, d.cat ∉ pruned ∧ d.first = first ∧ d.last = last) :
    Midway kept beam first last (q, pruned) (q', pruned') := by
  have hsame : ∀ {f l c}, kept.allows c f l = true → ¬(f = first ∧ l = last) ∨ c ∈ pruned →
      q.treesAt f l c = p.treesAt f l c ∧ q'.treesAt f l c = p'.treesAt f l c := by
    intro f l c hc hn
    obtain ⟨ts, h1, h2, hts⟩ := hj.treesAt hp hp' hc
    have hnil : ts = [] := List.eq_nil_iff_forall_not_mem.mpr fun t ht => by
      obtain ⟨d, hd, rfl, rfl, rfl⟩ := hts t ht
      obtain ⟨hcat, hspan⟩ := hds d hd
      exact hn.elim (fun h => h hspan) hcat
    rw [h1, h2, hnil, List.append_nil, List.append_nil]
    exact ⟨rfl, rfl⟩
  refine ⟨fun f l => hj.cats (h.cats f l), ?_, ?_, ?_, h.subset⟩
  · intro f l c hn hc
    obtain ⟨h1, h2⟩ := hsame hc (Or.inl hn)
    rw [h1, h2]
    exact h.elsewhere f l c hn hc
  · intro c hc hn
    obtain ⟨ts, h1, h2, -⟩ := hj.treesAt hp hp' hc
    rw [h1, h2]
    exact congrArg (· ++ ts) (h.unsorted c hc hn)
  · intro c hc hm
    obtain ⟨h1, h2⟩ := hsame hc (Or.inr hm)
    rw [h1, h2]
    exact h.sorted c hc hm

/-- Once everything over the span is sorted, the parses agree. -/
theorem Midway.agree {beam : Beam α} (h : Midway kept beam first last s s')
    (hdone : ∀ c ∈ s.1.chart.cats first last, c ∈ s.2) (hdone' : ∀ c ∈ s'.1.chart.cats first last, c ∈ s'.2) :
    Agree kept s.1 s'.1 where
  cats := h.cats
  trees f l c hc := by
    by_cases hn : f = first ∧ l = last
    · obtain ⟨rfl, rfl⟩ := hn
      by_cases hm : c ∈ s.2
      · rw [h.sorted c hc hm]
        split
        · rfl
        · -- the second parse found nothing there
          rename_i hm'
          rw [treesAt_of_not_mem fun hk => hm' (hdone' c hk), Beam.bestTrees_nil]
      · exact h.unsorted c hc hm
    · exact h.elsewhere f l c hn hc

/-- What a unary rule is applied to: everything in the cell of the category that it takes. -/
def takes (chart : Chart α) (first last : Nat) (rule : Rule) : List Application :=
  (chart.get first last rule.target).map fun d => { rule, first, last, children := [d] }

omit [Score α] in
theorem rule_of_mem_takes {chart : Chart α} {rule : Rule} {a : Application}
    (ha : a ∈ takes chart first last rule) : a.rule = rule := by
  obtain ⟨d, -, rfl⟩ := List.mem_map.mp ha
  rfl

/-- The applications of a unary rule by the trees of the cell that it takes. -/
theorem map_over_takes (p : Progress α) (rule : Rule) (first last : Nat) :
    (takes p.chart first last rule).map (fun a => a.over p.arena) =
      (p.treesAt first last rule.target).map fun t => { rule, first, last, children := [t] } := by
  unfold takes treesAt cellOf
  rw [List.map_map, List.map_map]
  rfl

/-- A category that was not found has no trees. -/
theorem treesAt_eq_nil {c : String} {f l : Nat} (hp : p.Tracked found task)
    (hn : found.allows c f l = false) : p.treesAt f l c = [] :=
  treesAt_of_not_mem fun hk => by
    rw [hp.found f l c hk] at hn
    cases hn

omit [Score α] in
/-- What the coarse parse knows about a unary rule: it finds what the rule makes, and keeps what the rule takes if
it keeps what the rule makes. -/
theorem allows_unary (hclosed : CoarseChart.Closed rules task.ex found kept) (hf : first < last)
    (hl : last ≤ task.length) {rule : Rule} (hr : rule ∈ rules) (hu : rule.isCatUnary = true)
    (hfound : found.allows rule.target first last = true) :
    found.allows rule.lhs first last = true ∧
      (kept.allows rule.lhs first last = true → kept.allows rule.target first last = true) := by
  have hlinks := (hclosed.filled first last hf hl).unary rule hr hu hfound
  exact ⟨hlinks.allows, fun hk =>
    hclosed.follow ⟨rule.lhs, first, last⟩ ⟨rule.target, first, last⟩ hk hlinks hfound⟩

/-- Applying a unary rule keeps a parse open. -/
theorem Open.takes (hlim : task.limit = none) (hcat : ∀ r ∈ rules, isCat r.lhs = true)
    (hclosed : CoarseChart.Closed rules task.ex found kept) (hf : first < last) (hl : last ≤ task.length)
    {rule : Rule} (hr : rule ∈ rules) (hu : rule.isCatUnary = true)
    (hb : task.canBuild rule first last = true) {pruned : List String}
    (ho : Open found task first last (p, pruned)) (h : applyAll task p (takes p.chart first last rule) = .ok q) :
    Open found task first last (q, pruned) := by
  have hfound : ∀ a ∈ BottomUp.takes p.chart first last rule, found.allows a.rule.lhs first last = true :=
    fun a ha => by
      obtain ⟨d, hd, rfl⟩ := List.mem_map.mp ha
      refine (allows_unary hclosed hf hl hr hu (ho.tracked.found _ _ _ ?_)).1
      rw [Chart.cats_eq]
      exact Chart.mem_keys_of_mem_get hd
  have hchart : ∀ a ∈ BottomUp.takes p.chart first last rule, FromChart task p.chart rules first last [] a :=
    fun a ha => fromChart_unary hr hb ha
  obtain ⟨ds, hg, -⟩ := grown_trees hlim (fun a ha => (hchart a ha).fits ho.tracked.sound hf hl) h
  exact ho.grown (ho.tracked.applyAll hlim hcat hf hl hchart hfound h) hg

/-- **A unary rule that the second parse may not use**: it makes nothing that is kept. -/
theorem Midway.skip (hlim : task.limit = none) {rule : Rule} (hr : rule ∈ rules)
    (hb : task.canBuild rule first last = true) (hk : kept.allows rule.lhs first last = false)
    (hf : first < last) (hl : last ≤ task.length) {pruned : List String}
    (h : Midway kept task.beam first last (p, pruned) s') (hlater : rule.lhs ∉ pruned)
    (ho : Open found task first last (p, pruned)) (ho' : Open found (task.prunedBy kept supply) first last s')
    (ht : applyAll task p (takes p.chart first last rule) = .ok q) :
    Midway kept task.beam first last (q, pruned) s' := by
  obtain ⟨p', pruned'⟩ := s'
  have hchart : ∀ a ∈ takes p.chart first last rule, FromChart task p.chart rules first last [] a :=
    fun a ha => fromChart_unary hr hb ha
  have hviews : keptViews kept first last p.arena (takes p.chart first last rule) =
      ([] : List Application).map fun a => a.over p'.arena :=
    keptViews_eq_nil _ fun a ha => by rw [rule_of_mem_takes ha, hk]
  obtain ⟨q', ds, ds', hrun, hj, hds⟩ := applyAll_joint supply hlim hviews
    (fun a ha => ⟨(hchart a ha).first, (hchart a ha).last⟩)
    (fun a ha => (hchart a ha).fits ho.tracked.sound hf hl) (fun a ha => nomatch ha) ht
  obtain rfl : p' = q' := Except.ok.inj hrun
  refine h.joint ho.tracked.sound.bounded ho'.tracked.sound.bounded hj fun d hd => ?_
  obtain ⟨a, ha, h1, h2⟩ := hds d hd
  exact ⟨by rw [h1, rule_of_mem_takes ha]; exact hlater, h2⟩

/-- **A unary rule that both parses use**, on a cell that both have sorted. -/
theorem Midway.take (hlim : task.limit = none) (hclosed : CoarseChart.Closed rules task.ex found kept)
    {rule : Rule} (hr : rule ∈ rules) (hu : rule.isCatUnary = true) (hb : task.canBuild rule first last = true)
    (hb' : (task.prunedBy kept supply).canBuild rule first last = true)
    (hk : kept.allows rule.lhs first last = true) (hf : first < last) (hl : last ≤ task.length)
    {pruned pruned' : List String} (h : Midway kept task.beam first last (p, pruned) (p', pruned'))
    (hlater : rule.lhs ∉ pruned) (hmem : rule.target ∈ pruned) (hmem' : rule.target ∈ pruned')
    (ho : Open found task first last (p, pruned))
    (ho' : Open found (task.prunedBy kept supply) first last (p', pruned'))
    (ht : applyAll task p (takes p.chart first last rule) = .ok q) :
    ∃ q', applyAll (task.prunedBy kept supply) p' (takes p'.chart first last rule) = .ok q' ∧
      Midway kept task.beam first last (q, pruned) (q', pruned') := by
  have htrees : p.treesAt first last rule.target = p'.treesAt first last rule.target := by
    cases hft : found.allows rule.target first last with
    | false => rw [treesAt_eq_nil ho.tracked hft, treesAt_eq_nil ho'.tracked hft]
    | true =>
      have hsorted := h.sorted _ ((allows_unary hclosed hf hl hr hu hft).2 hk) hmem
      rwa [if_pos hmem'] at hsorted
  have hchart : ∀ a ∈ takes p.chart first last rule, FromChart task p.chart rules first last [] a :=
    fun a ha => fromChart_unary hr hb ha
  have hchart' : ∀ a ∈ takes p'.chart first last rule,
      FromChart (task.prunedBy kept supply) p'.chart rules first last [] a :=
    fun a ha => fromChart_unary hr hb' ha
  have hviews : keptViews kept first last p.arena (takes p.chart first last rule) =
      (takes p'.chart first last rule).map fun a => a.over p'.arena := by
    unfold keptViews
    rw [List.filter_eq_self.mpr fun a ha => by rw [rule_of_mem_takes ha, hk], map_over_takes, map_over_takes,
      htrees]
  obtain ⟨q', ds, ds', hrun, hj, hds⟩ := applyAll_joint supply hlim hviews
    (fun a ha => ⟨(hchart a ha).first, (hchart a ha).last⟩)
    (fun a ha => (hchart a ha).fits ho.tracked.sound hf hl)
    (fun a ha => (hchart' a ha).fits ho'.tracked.sound hf hl) ht
  refine ⟨q', hrun, h.joint ho.tracked.sound.bounded ho'.tracked.sound.bounded hj fun d hd => ?_⟩
  obtain ⟨a, ha, h1, h2⟩ := hds d hd
  exact ⟨by rw [h1, rule_of_mem_takes ha]; exact hlater, h2⟩

/-- **A unary rule in both parses.** -/
theorem applyUnary_midway (hc : task.coarse = none) (hlim : task.limit = none) (hq : task.beam.Quiet)
    (hs : StrictMono task.supply) (hs' : StrictMono supply) (hcat : ∀ r ∈ rules, isCat r.lhs = true)
    (hclosed : CoarseChart.Closed rules task.ex found kept) (hf : first < last) (hl : last ≤ task.length)
    {rule : Rule} (hr : rule ∈ rules) (hu : rule.isCatUnary = true) (hself : rule.lhs ≠ rule.target)
    (hlater : rule.lhs ∉ s.2) (h : Midway kept task.beam first last s s') (ho : Open found task first last s)
    (ho' : Open found (task.prunedBy kept supply) first last s') {t : Progress α × List String}
    (ht : applyUnary task first last s rule = .ok t) :
    ∃ t', applyUnary (task.prunedBy kept supply) first last s' rule = .ok t' ∧
      Midway kept task.beam first last t t' ∧ Open found task first last t ∧
      Open found (task.prunedBy kept supply) first last t' ∧ ∀ c ∈ t.2, c ∈ s.2 ∨ c = rule.target := by
  obtain ⟨p, pruned⟩ := s
  obtain ⟨p', pruned'⟩ := s'
  have hq' : (task.prunedBy kept supply).beam.Quiet := hq
  have hlim' : (task.prunedBy kept supply).limit = none := hlim
  have hclosed' : CoarseChart.Closed rules (task.prunedBy kept supply).ex found kept := hclosed
  have hbuild := Task.canBuild_prunedBy hc kept supply rule first last
  rw [applyUnary_eq_ok_iff] at ht
  cases hb : task.canBuild rule first last with
  | false =>
    rw [hb, if_neg Bool.false_ne_true] at ht
    refine ⟨(p', pruned'), ?_, ht ▸ h, ht ▸ ho, ho', fun c hm => Or.inl (ht ▸ hm)⟩
    rw [applyUnary_eq_ok_iff, hbuild, hb, Bool.false_and, if_neg Bool.false_ne_true]
  | true =>
    -- the first parse sorts the cell that the rule takes, and applies the rule to what is left
    rw [hb, if_pos rfl] at ht
    obtain ⟨happ, hpruned⟩ := ht
    have hleft := h.pruneLeft hq hs ho rule.target
    have hopen := ho.pruneOnce hq rule.target
    have hmem : ∀ c, c ∈ (pruneOnce first last (p, pruned) rule.target).2 ↔ c = rule.target ∨ c ∈ pruned :=
      fun c => mem_pruned_pruneOnce
    generalize pruneOnce first last (p, pruned) rule.target = r at *
    obtain ⟨r, sorted⟩ := r
    obtain ⟨q, sorted'⟩ := t
    obtain rfl : sorted' = sorted := hpruned
    have hlater' : rule.lhs ∉ sorted' := fun hm => ((hmem _).mp hm).elim hself hlater
    have hopen₁ := hopen.takes hlim hcat hclosed hf hl hr hu hb happ
    cases hk : kept.allows rule.lhs first last with
    | false =>
      refine ⟨(p', pruned'), ?_, hleft.skip hlim hr hb hk hf hl hlater' hopen ho' happ, hopen₁, ho',
        fun c hm => ((hmem c).mp hm).symm⟩
      rw [applyUnary_eq_ok_iff, hbuild, hb, hk, Bool.and_false, if_neg Bool.false_ne_true]
    | true =>
      -- the second one does so as well
      have hb' : (task.prunedBy kept supply).canBuild rule first last = true := by
        rw [hbuild, hb, hk]
        rfl
      have hright := hleft.pruneRight hq hs' ho' fun _ => (hmem rule.target).mpr (Or.inl rfl)
      have hopen' := ho'.pruneOnce hq' rule.target
      have hmem' : rule.target ∈ (pruneOnce first last (p', pruned') rule.target).2 :=
        mem_pruned_pruneOnce.mpr (Or.inl rfl)
      generalize hr' : pruneOnce first last (p', pruned') rule.target = r' at *
      obtain ⟨r', sorted''⟩ := r'
      obtain ⟨q', hrun, hmid⟩ := hright.take hlim hclosed hr hu hb hb' hk hf hl hlater'
        ((hmem rule.target).mpr (Or.inl rfl)) hmem' hopen hopen' happ
      refine ⟨(q', sorted''), ?_, hmid, hopen₁, hopen'.takes hlim' hcat hclosed' hf hl hr hu hb' hrun,
        fun c hm => ((hmem c).mp hm).symm⟩
      rw [applyUnary_eq_ok_iff, hb', if_pos rfl, hr']
      exact ⟨hrun, rfl⟩

/-! ## Spans and texts -/

/-- Sorting every category of a list: all of them are sorted then, and no category comes or goes. -/
theorem foldl_pruneOnce_spec (first last : Nat) (cats : List String) (s : Progress α × List String) :
    (∀ c, c ∈ s.2 ∨ c ∈ cats → c ∈ (cats.foldl (pruneOnce first last) s).2) ∧
      ∀ f l, (cats.foldl (pruneOnce first last) s).1.chart.cats f l = s.1.chart.cats f l := by
  have h := foldl_induct
    (P := fun pre (t : Progress α × List String) =>
      (∀ c, c ∈ s.2 ∨ c ∈ pre → c ∈ t.2) ∧ ∀ f l, t.1.chart.cats f l = s.1.chart.cats f l)
    cats s (f := pruneOnce first last) ⟨fun c hc => hc.resolve_right List.not_mem_nil, fun _ _ => rfl⟩ (by
      rintro pre cat post ⟨q, pruned⟩ _ ⟨hin, hcats⟩
      refine ⟨fun c hc => ?_, fun f l => (cats_pruneOnce q pruned first last cat f l).trans (hcats f l)⟩
      rw [mem_pruned_pruneOnce]
      rw [List.mem_append, List.mem_singleton, ← or_assoc] at hc
      exact hc.symm.imp id (hin c))
  exact h

/-- **The end of a span in both parses**: every cell is sorted. -/
theorem Midway.finish (hq : task.beam.Quiet) (hs : StrictMono task.supply) (hs' : StrictMono supply)
    (h : Midway kept task.beam first last s s') (ho : Open found task first last s)
    (ho' : Open found (task.prunedBy kept supply) first last s') :
    Agree kept ((s.1.chart.cats first last).foldl (pruneOnce first last) s).1
      ((s'.1.chart.cats first last).foldl (pruneOnce first last) s').1 := by
  have hq' : (task.prunedBy kept supply).beam.Quiet := hq
  obtain ⟨hsorted, hcats⟩ := foldl_pruneOnce_spec first last (s.1.chart.cats first last) s
  obtain ⟨hsorted', hcats'⟩ := foldl_pruneOnce_spec first last (s'.1.chart.cats first last) s'
  obtain ⟨hleft, -⟩ := foldl_induct
    (P := fun _ t => Midway kept task.beam first last t s' ∧ Open found task first last t)
    (s.1.chart.cats first last) s (f := pruneOnce first last) ⟨h, ho⟩
    fun _ cat _ t _ ht => ⟨ht.1.pruneLeft hq hs ht.2 cat, ht.2.pruneOnce hq cat⟩
  -- a category that is kept and that the second parse has found, the first one has found and sorted
  have hin : ∀ cat ∈ s'.1.chart.cats first last, kept.allows cat first last = true →
      cat ∈ ((s.1.chart.cats first last).foldl (pruneOnce first last) s).2 := fun cat hcat hk => by
    have hmem : cat ∈ (s'.1.chart.cats first last).filter fun c => kept.allows c first last :=
      List.mem_filter.mpr ⟨hcat, hk⟩
    rw [← h.cats] at hmem
    exact hsorted cat (Or.inr (List.mem_filter.mp hmem).1)
  obtain ⟨hright, -⟩ := foldl_induct
    (P := fun _ t' => Midway kept task.beam first last
        ((s.1.chart.cats first last).foldl (pruneOnce first last) s) t' ∧
      Open found (task.prunedBy kept supply) first last t')
    (s'.1.chart.cats first last) s' (f := pruneOnce first last) ⟨hleft, ho'⟩
    fun pre cat post t' hl ht' => ⟨ht'.1.pruneRight hq hs' ht'.2 (hin cat (by rw [hl]; simp)),
      ht'.2.pruneOnce hq' cat⟩
  refine hright.agree (fun c hc => ?_) fun c hc => ?_
  · rw [hcats] at hc
    exact hsorted c (Or.inr hc)
  · rw [hcats'] at hc
    exact hsorted' c (Or.inr hc)

omit [Score α] in
/-- The left-hand sides of the coverings of a span are found there. -/
theorem allows_of_mem_coverings {l : List NumberedRule} {trie : Trie}
    (hclosed : CoarseChart.Closed rules task.ex found kept)
    (hrules : ∀ r ∈ l, r.rule ∈ rules ∧ r.rule.rhs.length ≤ 2 ∧ r.rule.isCatUnary = false)
    (h : Trie.Filed l [] trie) (hp : p.Tracked found task) (hf : first < last) (hl : last ≤ task.length)
    {a : Application} (ha : a ∈ coverings task p.chart first last first trie []) :
    found.allows a.rule.lhs first last = true := by
  have way := way_of_mem_coverings ha
  obtain ⟨rest, hrhs, hrest⟩ := way.coversAll hp.found h (Nat.le_of_lt hf)
  obtain ⟨r, hr, he, -⟩ := way.exists_rule h
  obtain ⟨hmem, hlen, hu⟩ := hrules r hr
  rw [← he] at hmem hlen hu
  refine allows_lhs hclosed hmem hu hlen hf hl ?_
  rw [hrhs]
  exact hrest

/-- Everything that the second parse may use has a left-hand side that is kept. -/
theorem keptViews_eq_map (hc : task.coarse = none)
    (h : ∀ a ∈ l, FromChart (task.prunedBy kept supply) p.chart rules first last [] a) (arena : Arena α) :
    keptViews kept first last arena l = l.map fun a => a.over arena := by
  unfold keptViews
  rw [List.filter_eq_self.mpr fun a ha => ?_]
  have hb := (h a ha).canBuild
  rw [Task.canBuild_prunedBy hc, Bool.and_eq_true] at hb
  exact hb.2

/-- **A span in both parses.** -/
theorem buildSpan_agree {unaries : List Rule} (hc : task.coarse = none) (hlim : task.limit = none)
    (hq : task.beam.Quiet) (hs : StrictMono task.supply) (hs' : StrictMono supply)
    (hready : Ready rules unaries) (hlen : ∀ r ∈ rules, r.rhs.length ≤ 2)
    (hclosed : CoarseChart.Closed rules task.ex found kept) (hf : first < last) (hl : last ≤ task.length)
    (hp : p.Tracked found task) (hp' : p'.Tracked found (task.prunedBy kept supply)) (hagree : Agree kept p p')
    (hasc : ∀ c, p.Ascending first last c) (hasc' : ∀ c, p'.Ascending first last c)
    (h : buildSpan task (trieOf rules) unaries p (first, last) = .ok q) :
    ∃ q', buildSpan (task.prunedBy kept supply) (trieOf rules) unaries p' (first, last) = .ok q' ∧
      Agree kept q q' ∧ q.Tracked found task ∧ q'.Tracked found (task.prunedBy kept supply) := by
  have hq' : (task.prunedBy kept supply).beam.Quiet := hq
  have hlim' : (task.prunedBy kept supply).limit = none := hlim
  have hclosed' : CoarseChart.Closed rules (task.prunedBy kept supply).ex found kept := hclosed
  have hfiled := filed_trieOf rules
  have hrules : ∀ r ∈ (numberRules rules).filter fun r => !r.rule.isCatUnary,
      r.rule ∈ rules ∧ r.rule.rhs.length ≤ 2 ∧ r.rule.isCatUnary = false := fun r hr => by
    have hmem := rule_mem_of_mem_trieOf (List.mem_map_of_mem (f := NumberedRule.rule) hr)
    exact ⟨hmem, hlen _ hmem, by simpa using (List.mem_filter.mp hr).2⟩
  obtain ⟨p₁, p₂, pruned, h₁, h₂, rfl⟩ := (buildSpan_eq_ok_iff hlim hready hp.sound hf hl).mp h
  have hchart : ∀ a ∈ coverings task p.chart first last first (trieOf rules) [],
      FromChart task p.chart rules first last [] a := fun a ha => fromChart_coverings hp.sound.distinct ha
  have hchart' : ∀ a ∈ coverings (task.prunedBy kept supply) p'.chart first last first (trieOf rules) [],
      FromChart (task.prunedBy kept supply) p'.chart rules first last [] a :=
    fun a ha => fromChart_coverings hp'.sound.distinct ha
  -- the rules that take parts of the span
  have hviews := (coverings_agree supply hc hclosed
    (fun r hr => ⟨(hrules r hr).1, (hrules r hr).2.1⟩) hf hl hp hp' hagree hfiled (Nat.le_of_lt hf)
    (show CoversAll found task.ex first last [] first first from rfl) [] [] rfl).trans
      (keptViews_eq_map hc hchart' p'.arena)
  obtain ⟨p₁', ds, ds', h₁', hj, -⟩ := applyAll_joint supply hlim hviews
    (fun a ha => ⟨(hchart a ha).first, (hchart a ha).last⟩)
    (fun a ha => (hchart a ha).fits hp.sound hf hl) (fun a ha => (hchart' a ha).fits hp'.sound hf hl) h₁
  have ho : Open found task first last (p₁, []) :=
    ⟨hp.applyAll hlim hready.cats hf hl hchart
      (fun a ha => allows_of_mem_coverings hclosed hrules hfiled hp hf hl ha) h₁,
      fun c _ => (hasc c).grown hp.sound.bounded hj.grown⟩
  have ho' : Open found (task.prunedBy kept supply) first last (p₁', []) :=
    ⟨hp'.applyAll hlim' hready.cats hf hl hchart'
      (fun a ha => allows_of_mem_coverings hclosed' hrules hfiled hp' hf hl ha) h₁',
      fun c _ => (hasc' c).grown hp'.sound.bounded hj.grown'⟩
  have hmid := Agree.midway (hagree.joint hp.sound.bounded hp'.sound.bounded hj) task.beam first last
  -- the unary rules, one after the other; a cell that was sorted is taken by an earlier rule
  obtain ⟨⟨p₂', pruned'⟩, h₂', hmid', ho₂, ho₂', -⟩ := foldlM_lockstep
    (R := fun pre (s s' : Progress α × List String) => Midway kept task.beam first last s s' ∧
      Open found task first last s ∧ Open found (task.prunedBy kept supply) first last s' ∧
      ∀ c ∈ s.2, ∃ r ∈ pre, r.target = c)
    (g := applyUnary (task.prunedBy kept supply) first last)
    ⟨hmid, ho, ho', fun c hm => nomatch hm⟩ (by
      rintro pre rule post s s' t hlist ⟨hm, hs₁, hs₁', hpre⟩ hstep
      have hmem : rule ∈ unaries := hlist ▸ by simp
      obtain ⟨hr, hu⟩ := (UnaryOrder.mem_sort hready.sorted).mp hmem
      have hlater : rule.lhs ∉ s.2 := fun hin => by
        obtain ⟨r, hr', he⟩ := hpre _ hin
        have horder := UnaryOrder.pairwise_sort hready.sorted
        rw [hlist] at horder
        exact (List.pairwise_append.mp horder).2.2 r hr' rule List.mem_cons_self he.symm
      obtain ⟨t', ht', hm', ho₁, ho₁', hsub⟩ := applyUnary_midway hc hlim hq hs hs' hready.cats hclosed hf hl hr
        hu (UnaryOrder.lhs_ne_target_of_sort hready.sorted hmem) hlater hm hs₁ hs₁' hstep
      refine ⟨t', ht', hm', ho₁, ho₁', fun c hin => ?_⟩
      rcases hsub c hin with hin | rfl
      · obtain ⟨r, hr', he⟩ := hpre c hin
        exact ⟨r, List.mem_append_left _ hr', he⟩
      · exact ⟨rule, List.mem_append_right _ List.mem_cons_self, rfl⟩) h₂
  have htracked : ∀ {task : Task α} (_ : task.beam.Quiet) {s : Progress α × List String}
      (_ : Open found task first last s) (cats : List String),
      (cats.foldl (pruneOnce first last) s).1.Tracked found task := fun hq s ho cats =>
    (foldl_induct (P := fun _ t => Open found _ first last t) cats s (f := pruneOnce first last) ho
      fun _ cat _ t _ ht => ht.pruneOnce hq cat).tracked
  refine ⟨_, (buildSpan_eq_ok_iff hlim' hready hp'.sound hf hl).mpr ⟨p₁', p₂', pruned', h₁', h₂', rfl⟩,
    hmid'.finish hq hs hs' ho₂ ho₂', htracked hq ho₂ _, htracked hq' ho₂' _⟩

end BottomUp

end Parlance
