import Parlance.Proofs.BeamWidth

/-!
# `Proofs.BeamParse` — the predictions of a smaller beam

Span by span, a parse with a smaller beam goes on as the one with the larger beam does, and every cell that is
complete has the best of its derivations. What the wide parse does later changes no cell of a span that is built, so
that it is enough if scores go by rule and span in the end.

## Contents
- **Charts.** `Chart.RuleLocal`: scores go by rule and span in a whole chart.
- **Spans.** `Built`, and `Beside.buildSpan`.
- **Texts.** `InPace`, kept from span to span, and `run_inPace`.
- **Parsers.** `Parser.parse_beamSize_le`, and what happens where results are dropped.
-/

namespace Parlance

open Progress

variable {α : Type} [Score α]

/-! ## Charts -/

/-- **A chart in which scores go by rule and span.** Tokens and phrases have scores. Wherever a rule is applied, what
its results add to the scores of the children depends on the rule, the span and the cells that the children come
from. -/
structure Chart.RuleLocal (task : Task α) (rules : List Rule) (chart : Chart α) (arena : Arena α) : Prop where
  tokens : ∀ d ∈ ratedTerminals task, Score.IsNumber d.score
  parts : ∀ first last, first < last → last ≤ task.length → Composition.RuleLocal task
    ((BottomUp.coverings task chart first last first (trieOf rules) []).map fun a => a.over arena)
  unary : ∀ r ∈ rules, r.isCatUnary = true → ∀ first last, first < last → last ≤ task.length →
    task.canBuild r first last = true →
      Composition.RuleLocal task ((BottomUp.takes chart first last r).map fun a => a.over arena)

theorem Chart.RuleLocal.congr {task : Task α} {rules : List Rule} {chart : Chart α} {arena arena' : Arena α}
    (h : Chart.RuleLocal task rules chart arena) (hunfold : arena'.unfold = arena.unfold) :
    Chart.RuleLocal task rules chart arena' := by
  have hover : (fun a : Application => a.over arena') = fun a => a.over arena := funext fun a => by
    unfold Application.over
    rw [hunfold]
  refine ⟨h.tokens, ?_, ?_⟩
  · rw [hover]
    exact h.parts
  · rw [hover]
    exact h.unary

/-- Scores go by rule and span in a chart if they do wherever the rules are applied. -/
theorem Chart.RuleLocal.of_rules {task : Task α} {rules : List Rule} {chart : Chart α} {arena : Arena α}
    (htokens : ∀ d ∈ ratedTerminals task, Score.IsNumber d.score) (hd : chart.Distinct)
    (h : ∀ l : List (Composition α), (∀ c ∈ l, c.rule ∈ rules) → Composition.RuleLocal task l) :
    Chart.RuleLocal task rules chart arena := by
  refine ⟨htokens, fun first last _ _ => h _ fun c hc => ?_, fun r hr _ first last _ _ _ => h _ fun c hc => ?_⟩
  · obtain ⟨a, ha, rfl⟩ := List.mem_map.mp hc
    have hfrom : BottomUp.FromChart task chart rules first last [] a :=
      BottomUp.fromChart_coverings (p := ⟨arena, chart, 0⟩) hd ha
    exact hfrom.rule
  · obtain ⟨a, ha, rfl⟩ := List.mem_map.mp hc
    have hrule : a.rule = r := BottomUp.rule_of_mem_takes ha
    show a.rule ∈ rules
    rw [hrule]
    exact hr

omit [Score α] in
/-- A walk goes by nothing that the beam changes. -/
theorem treeCoverings_withBeam (task : Task α) (k : Nat) (supply : Nat → Nat) (cats : Nat → Nat → List String)
    (cells : Nat → Nat → String → List (DerivationTree α)) (first last i : Nat) (trie : Trie)
    (children : List (DerivationTree α)) :
    treeCoverings (task.withBeam k supply) cats cells first last i trie children =
      treeCoverings task cats cells first last i trie children := by
  induction hn : last - i using Nat.strongRecOn generalizing i trie children with
  | ind n ih =>
    have hallows : (task.withBeam k supply).allowsAny trie.cats first last = task.allowsAny trie.cats first last := rfl
    rw [treeCoverings, treeCoverings, hallows]
    split
    case isTrue => rfl
    case isFalse =>
      split
      case isTrue => rfl
      case isFalse hend =>
        congr 1
        · have htoken : (task.withBeam k supply).ex.token i = task.ex.token i := rfl
          rw [htoken]
          cases trie.next? (task.ex.token i) with
          | none => rfl
          | some next => exact ih (last - (i + 1)) (by omega) (i + 1) next children rfl
        · refine List.flatMap_congr fun m hm => ?_
          rw [List.mem_range] at hm
          dsimp only
          split
          case isTrue => rfl
          case isFalse =>
            refine List.flatMap_congr fun cat _ => ?_
            cases trie.next? cat with
            | none => rfl
            | some next =>
              exact List.flatMap_congr fun t _ => ih (last - (i + m + 1)) (by omega) (i + m + 1) next _ rfl

namespace BottomUp

variable {task : Task α} {supply : Nat → Nat} {k : Nat} {rules unaries : List Rule} {p p' q q' : Progress α}
  {first last : Nat}

/-! ## Spans -/

/-- **Two parses when a span is built**, the second one with a beam of `k`. -/
structure Built (task : Task α) (k : Nat) (supply : Nat → Nat) (first last : Nat) (p p' : Progress α) : Prop where
  orderly : p.Orderly task
  orderly' : p'.Orderly (task.withBeam k supply)
  cats : p'.chart.cats first last = p.chart.cats first last
  fits : ∀ c, ∀ t ∈ p.treesAt first last c, t.IsNumber ∧ t.isAt first last c = true
  sorted : ∀ c, p'.treesAt first last c = (p.treesAt first last c).take k ∧
    (p.treesAt first last c).Pairwise fun t u => t.trails u = false

/-- Once every category of the span is sorted, the span is built. -/
theorem Beside.built {s s' : Progress α × List String} (h : Beside k first last s s')
    (hw : Working task first last s) (hw' : Working (task.withBeam k supply) first last s')
    (hdone : ∀ c ∈ s.1.chart.cats first last, c ∈ s.2) : Built task k supply first last s.1 s'.1 := by
  refine ⟨hw.orderly, hw'.orderly, h.cats, h.fits, fun c => ?_⟩
  by_cases hc : c ∈ s.2
  case pos => exact h.sorted c hc
  case neg =>
    -- there is nothing to sort
    have hnone : c ∉ s.1.chart.cats first last := fun hmem => hc (hdone c hmem)
    have hnone' : c ∉ s'.1.chart.cats first last := by
      rw [h.cats]
      exact hnone
    rw [treesAt_of_not_mem hnone, treesAt_of_not_mem hnone']
    exact ⟨List.take_nil.symm, .nil⟩

/-- **Covering a span in both parses**, if the narrow one has the best trees of each part. -/
theorem Beside.cover [Score.Exact α] (hc : task.Comparable k supply) (hcat : ∀ r ∈ rules, isCat r.lhs = true)
    (hf : first < last) (hl : last ≤ task.length) (h : Beside k first last (p, []) (p', []))
    (hw : Working task first last (p, [])) (hw' : Working (task.withBeam k supply) first last (p', []))
    (hcats : ∀ i j, IsPart first last i j → p'.chart.cats i j = p.chart.cats i j)
    (hranked : ∀ i j c, IsPart first last i j → Ranked p.treesAt i j c)
    (hbest : ∀ i j c, IsPart first last i j → p'.treesAt i j c = (p.treesAt i j c).take k)
    (hlocal : Composition.RuleLocal task
      (treeCoverings task p.chart.cats p.treesAt first last first (trieOf rules) []))
    (hrun : BottomUp.applyAll task p (coverings task p.chart first last first (trieOf rules) []) = .ok q) :
    ∃ q', BottomUp.applyAll (task.withBeam k supply) p'
        (coverings (task.withBeam k supply) p'.chart first last first (trieOf rules) []) = .ok q' ∧
      Beside k first last (q, []) (q', []) ∧ Working task first last (q, []) ∧
      Working (task.withBeam k supply) first last (q', []) := by
  have hlim : (task.withBeam k supply).limit = none := hc.limit
  have hfrom : ∀ a ∈ coverings task p.chart first last first (trieOf rules) [],
      FromChart task p.chart rules first last [] a := fun a ha => fromChart_coverings hw.orderly.sound.distinct ha
  have hfrom' : ∀ a ∈ coverings (task.withBeam k supply) p'.chart first last first (trieOf rules) [],
      FromChart (task.withBeam k supply) p'.chart rules first last [] a :=
    fun a ha => fromChart_coverings hw'.orderly.sound.distinct ha
  have hmap := map_over_coverings task hw.orderly.sound.distinct first last first (trieOf rules) []
  have hmap' := map_over_coverings (task.withBeam k supply) hw'.orderly.sound.distinct first last first
    (trieOf rules) []
  rw [treeCoverings_withBeam, treeCoverings_congr (Nat.le_refl first) hcats fun _ _ _ _ => rfl] at hmap'
  obtain ⟨q', hrun', hnext⟩ := h.applyAll supply hc.pos hc.limit hw.orderly.sound.bounded hw'.orderly.sound.bounded
    (fun a ha => (hfrom a ha).fits hw.orderly.sound hf hl)
    (fun a ha => (hfrom' a ha).fits hw'.orderly.sound hf hl)
    (by
      rw [hmap, hmap']
      exact treeCoverings_subset (Nat.le_refl first) fun i j c hpart => hbest i j c hpart ▸ List.take_subset _ _)
    (by
      rw [hmap, hmap']
      exact trimmed_treeCoverings (Nat.le_refl first) hranked hbest (fun t ht => absurd ht List.not_mem_nil) hlocal)
    (by
      rw [hmap]
      intro u hu
      obtain ⟨c, hm, hu⟩ := List.mem_flatMap.mp hu
      refine Composition.isNumber_of_mem_trees (hlocal.numbers c hm) (fun t ht => ?_) hu
      obtain ⟨-, -, rest, hrest, hcells, -⟩ := exists_rest (Nat.le_refl first) hm
      rw [hrest] at ht
      obtain ⟨i, j, cat, hpart, ht⟩ := hcells t ht
      exact (hranked i j cat hpart).numbers t ht)
    (fun a _ => List.not_mem_nil) hrun
  exact ⟨q', hrun', hnext, hw.applyAll hc.limit hcat hf hl hfrom hrun, hw'.applyAll hlim hcat hf hl hfrom' hrun'⟩

/-- **A span in both parses.** -/
theorem Beside.buildSpan [Score.Exact α] (hc : task.Comparable k supply) (hready : Ready rules unaries)
    (hf : first < last) (hl : last ≤ task.length)
    (h : Beside k first last (p, []) (p', []))
    (hw : Working task first last (p, [])) (hw' : Working (task.withBeam k supply) first last (p', []))
    (hcats : ∀ i j, IsPart first last i j → p'.chart.cats i j = p.chart.cats i j)
    (hranked : ∀ i j c, IsPart first last i j → Ranked p.treesAt i j c)
    (hbest : ∀ i j c, IsPart first last i j → p'.treesAt i j c = (p.treesAt i j c).take k)
    (hparts : Composition.RuleLocal task
      (treeCoverings task p.chart.cats p.treesAt first last first (trieOf rules) []))
    (hunary : ∀ r ∈ rules, r.isCatUnary = true → task.canBuild r first last = true → Composition.RuleLocal task
      ((q.treesAt first last r.target).map fun t => ⟨r, first, last, [t]⟩))
    (hrun : BottomUp.buildSpan task (trieOf rules) unaries p (first, last) = .ok q) :
    ∃ q', BottomUp.buildSpan (task.withBeam k supply) (trieOf rules) unaries p' (first, last) = .ok q' ∧
      Built task k supply first last q q' := by
  have hlim : (task.withBeam k supply).limit = none := hc.limit
  -- covering, unary rules and the last pruning, each in both parses
  obtain ⟨p₁, p₂, pruned, h₁, h₂, rfl⟩ := (buildSpan_eq_ok_iff hc.limit hready hw.orderly.sound hf hl).mp hrun
  obtain ⟨p₁', h₁', hcover, hw₁, hw₁'⟩ := h.cover hc hready.cats hf hl hw hw' hcats hranked hbest hparts h₁
  obtain ⟨⟨p₂', pruned'⟩, h₂', hbeside, hw₂, hw₂'⟩ := hcover.foldUnaries hc hready hf hl hw₁ hw₁'
    (p₂.chart.cats first last) h₂ hunary
  obtain ⟨hlast, hw₃, hw₃'⟩ := hbeside.finish hc hw₂ hw₂' (p₂.chart.cats first last)
  obtain ⟨hdone, hsame⟩ := foldl_pruneOnce_spec first last (p₂.chart.cats first last) (p₂, pruned)
  refine ⟨_, (buildSpan_eq_ok_iff hlim hready hw'.orderly.sound hf hl).mpr ⟨p₁', p₂', pruned', h₁', h₂', rfl⟩, ?_⟩
  rw [show p₂'.chart.cats first last = p₂.chart.cats first last from hbeside.cats]
  exact hlast.built hw₃ hw₃' fun c hm => hdone c (.inr (hsame first last ▸ hm))

/-! ## Texts -/

omit [Score α] in
/-- A part of a span stands before it, and not behind it. -/
theorem mem_of_isPart {n i j : Nat} {pre post : List (Nat × Nat)}
    (hspans : spansByLength n = pre ++ (first, last) :: post) (h : IsPart first last i j) :
    (i, j) ∈ pre ∧ (i, j) ∉ post := by
  have hlast := (mem_spansByLength.mp (hspans ▸ by simp : (first, last) ∈ spansByLength n)).2
  have hmem : (i, j) ∈ spansByLength n := mem_spansByLength.mpr ⟨h.lt, Nat.le_trans h.le' hlast⟩
  have horder := pairwise_spansByLength n
  rw [hspans] at hmem horder
  have hbehind : (i, j) ∉ post := fun hm => by
    have hbefore := (List.pairwise_cons.mp (List.pairwise_append.mp horder).2.1).1 _ hm
    have := h.le
    have := h.le'
    have := h.lt
    unfold SpanBefore at hbefore
    simp only at hbefore
    omega
  refine ⟨?_, hbehind⟩
  rcases List.mem_append.mp hmem with hm | hm
  · exact hm
  · rcases List.mem_cons.mp hm with he | hm
    · exact absurd ⟨congrArg Prod.fst he, congrArg Prod.snd he⟩ h.ne
    · exact absurd hm hbehind

/-- A span does not stand behind itself. -/
theorem not_mem_behind {n : Nat} {pre post : List (Nat × Nat)}
    (hspans : spansByLength n = pre ++ (first, last) :: post) : (first, last) ∉ post := fun hm => by
  have horder := pairwise_spansByLength n
  rw [hspans] at horder
  have hbefore := (List.pairwise_cons.mp (List.pairwise_append.mp horder).2.1).1 _ hm
  unfold SpanBefore at hbefore
  simp only at hbefore
  omega

/-- **Cells that are not worked on any more** are what they are in the end. -/
structure Elsewhere (task : Task α) (spans : List (Nat × Nat)) (p q : Progress α) : Prop where
  sound : q.Sound task
  cats : ∀ f l, (f, l) ∉ spans → q.chart.cats f l = p.chart.cats f l
  trees : ∀ f l, (f, l) ∉ spans → ∀ c, q.treesAt f l c = p.treesAt f l c

/-- Building spans changes the cells of these spans only. -/
theorem elsewhere_of_foldlM (hlim : task.limit = none) (hq : task.beam.Quiet) (hready : Ready rules unaries)
    (hp : p.Sound task) {spans : List (Nat × Nat)} (hspans : ∀ s ∈ spans, s ∈ spansByLength task.length)
    (h : spans.foldlM (BottomUp.buildSpan task (trieOf rules) unaries) p = .ok q) : Elsewhere task spans p q := by
  refine foldlM_induct (P := fun pre q => Elsewhere task pre p q) ⟨hp, fun _ _ _ => rfl, fun _ _ _ _ => rfl⟩ ?_ h
  rintro pre ⟨first, last⟩ post r t hlist helse hstep
  obtain ⟨hf, hl⟩ := mem_spansByLength.mp (hspans (first, last) (hlist ▸ by simp))
  obtain ⟨hsound, hlater⟩ := step_buildSpan hlim hq hready helse.sound hf hl hstep
  refine ⟨hsound, fun f l hn => ?_, fun f l hn c => ?_⟩
  · rw [List.mem_append, List.mem_singleton, not_or] at hn
    exact (hlater.cats f l fun he => hn.2 (Prod.ext he.1 he.2)).trans (helse.cats f l hn.1)
  · rw [List.mem_append, List.mem_singleton, not_or] at hn
    exact (hlater.treesAt helse.sound.bounded (fun he => hn.2 (Prod.ext he.1 he.2)) c).trans (helse.trees f l hn.1 c)

/-- **Two parses once some spans are built**, the second one with a beam of `k`. It has the best trees of every cell
that is complete, and all trees of the others. -/
structure InPace (task : Task α) (k : Nat) (supply : Nat → Nat) (pre : List (Nat × Nat)) (p p' : Progress α) :
    Prop where
  orderly : p.Orderly task
  orderly' : p'.Orderly (task.withBeam k supply)
  ascending : ∀ f l, (f, l) ∉ pre → ∀ c, p.Ascending f l c
  ascending' : ∀ f l, (f, l) ∉ pre → ∀ c, p'.Ascending f l c
  cats : ∀ f l, p'.chart.cats f l = p.chart.cats f l
  fits : ∀ f l c, ∀ t ∈ p.treesAt f l c, t.IsNumber ∧ t.isAt f l c = true
  ahead : ∀ f l, (f, l) ∉ pre → ∀ c, p'.treesAt f l c = p.treesAt f l c
  behind : ∀ f l, (f, l) ∈ pre → ∀ c, p'.treesAt f l c = (p.treesAt f l c).take k ∧
    (p.treesAt f l c).Pairwise fun t u => t.trails u = false

/-- **The parses begin in step.** -/
theorem inPace_seed (task : Task α) (k : Nat) (supply : Nat → Nat)
    (htokens : ∀ d ∈ ratedTerminals task, Score.IsNumber d.score) :
    InPace task k supply [] (seed task) (seed (task.withBeam k supply)) := by
  obtain ⟨hcats, htrees⟩ := seed_congr (show (task.withBeam k supply).ex = task.ex from rfl) rfl rfl
  refine ⟨⟨sound_seed task, numbered_seed task⟩, ⟨sound_seed _, numbered_seed _⟩, fun f l _ => ascending_seed task f l,
    fun f l _ => ascending_seed _ f l, hcats, fun f l c t ht => ?_, fun f l _ => htrees f l,
    fun f l hm => absurd hm List.not_mem_nil⟩
  rw [treesAt_seed] at ht
  obtain ⟨ht, hat⟩ := List.mem_filter.mp ht
  obtain ⟨d, hd, rfl⟩ := List.mem_map.mp ht
  exact ⟨htokens d hd, hat⟩

/-- Where scores go by rule and span in the end, they did so when a span was covered. -/
theorem ruleLocal_cover {r : Progress α} (h : Chart.RuleLocal task rules r.chart r.arena)
    (hd : r.chart.Distinct) (hf : first < last) (hl : last ≤ task.length)
    (hcats : ∀ i j, IsPart first last i j → r.chart.cats i j = p.chart.cats i j)
    (htrees : ∀ i j c, IsPart first last i j → r.treesAt i j c = p.treesAt i j c) :
    Composition.RuleLocal task (treeCoverings task p.chart.cats p.treesAt first last first (trieOf rules) []) := by
  have hlocal := h.parts first last hf hl
  rw [map_over_coverings task hd first last first (trieOf rules) [],
    treeCoverings_congr (Nat.le_refl first) hcats htrees] at hlocal
  exact hlocal

/-- Once one more span is built, the parses are in step again. -/
theorem InPace.next {pre : List (Nat × Nat)} (h : InPace task k supply pre p p') (hlater : Later first last p q)
    (hlater' : Later first last p' q') (hbuilt : Built task k supply first last q q') :
    InPace task k supply (pre ++ [(first, last)]) q q' := by
  have htrees : ∀ f l, ¬(f = first ∧ l = last) → ∀ c, q.treesAt f l c = p.treesAt f l c := fun f l hn c =>
    hlater.treesAt h.orderly.sound.bounded hn c
  have htrees' : ∀ f l, ¬(f = first ∧ l = last) → ∀ c, q'.treesAt f l c = p'.treesAt f l c := fun f l hn c =>
    hlater'.treesAt h.orderly'.sound.bounded hn c
  -- the cells of the span are as `Built` says, and all others as they were
  refine ⟨hbuilt.orderly, hbuilt.orderly', fun f l hn c => ascending_of_later hlater h.ascending hn c,
    fun f l hn c => ascending_of_later hlater' h.ascending' hn c, fun f l => ?_, fun f l c t ht => ?_,
    fun f l hn c => ?_, fun f l hm c => ?_⟩
  · by_cases he : f = first ∧ l = last
    case pos =>
      obtain ⟨rfl, rfl⟩ := he
      exact hbuilt.cats
    case neg => rw [hlater.cats f l he, hlater'.cats f l he, h.cats]
  · by_cases he : f = first ∧ l = last
    case pos =>
      obtain ⟨rfl, rfl⟩ := he
      exact hbuilt.fits c t ht
    case neg =>
      rw [htrees f l he] at ht
      exact h.fits f l c t ht
  · rw [List.mem_append, List.mem_singleton, not_or] at hn
    have he : ¬(f = first ∧ l = last) := fun he => hn.2 (Prod.ext he.1 he.2)
    rw [htrees f l he, htrees' f l he]
    exact h.ahead f l hn.1 c
  · by_cases he : f = first ∧ l = last
    case pos =>
      obtain ⟨rfl, rfl⟩ := he
      exact hbuilt.sorted c
    case neg =>
      have hm : (f, l) ∈ pre := (List.mem_append.mp hm).resolve_right fun hm => he (by
        rw [List.mem_singleton] at hm
        exact ⟨congrArg Prod.fst hm, congrArg Prod.snd hm⟩)
      rw [htrees f l he, htrees' f l he]
      exact h.behind f l hm c

/-- **One span** keeps the parses in step, if scores go by rule and span in the end. -/
theorem InPace.buildSpan [Score.Exact α] (hc : task.Comparable k supply) (hready : Ready rules unaries)
    {pre post : List (Nat × Nat)} {span : Nat × Nat}
    (hspans : spansByLength task.length = pre ++ span :: post) (h : InPace task k supply pre p p')
    (hstep : BottomUp.buildSpan task (trieOf rules) unaries p span = .ok q) {r : Progress α}
    (hrest : post.foldlM (BottomUp.buildSpan task (trieOf rules) unaries) q = .ok r)
    (hlocal : Chart.RuleLocal task rules r.chart r.arena) :
    ∃ q', BottomUp.buildSpan (task.withBeam k supply) (trieOf rules) unaries p' span = .ok q' ∧
      InPace task k supply (pre ++ [span]) q q' := by
  obtain ⟨first, last⟩ := span
  have hlim : (task.withBeam k supply).limit = none := hc.limit
  have hquiet : (task.withBeam k supply).beam.Quiet := hc.quiet
  obtain ⟨hf, hl⟩ := mem_spansByLength.mp (hspans ▸ by simp : (first, last) ∈ spansByLength task.length)
  have hnew : (first, last) ∉ pre := fun hm =>
    not_within_of_mem hspans hm ⟨Nat.le_refl first, Nat.le_refl last⟩
  obtain ⟨hsound, hlater⟩ := step_buildSpan hc.limit hc.quiet hready h.orderly.sound hf hl hstep
  -- what the wide parse has in the end, it has from the time on when a span is built
  have helse := elsewhere_of_foldlM hc.limit hc.quiet hready hsound
    (fun s hm => by rw [hspans]; simp [hm]) hrest
  have hparts : ∀ i j, IsPart first last i j → r.chart.cats i j = p.chart.cats i j ∧
      ∀ c, r.treesAt i j c = p.treesAt i j c := by
    intro i j hpart
    have hbehind := (mem_of_isPart hspans hpart).2
    refine ⟨(helse.cats i j hbehind).trans (hlater.cats i j hpart.ne), fun c => ?_⟩
    exact (helse.trees i j hbehind c).trans (hlater.treesAt h.orderly.sound.bounded hpart.ne c)
  have hpartBehind : ∀ i j, IsPart first last i j → (i, j) ∈ pre := fun i j hpart => (mem_of_isPart hspans hpart).1
  have hbeside : Beside k first last (p, []) (p', []) :=
    ⟨rfl, h.cats first last, h.fits first last, fun c _ => h.ahead first last hnew c ▸ .refl _,
      fun c hm => absurd hm List.not_mem_nil⟩
  have hworking : Working task first last (p, []) := ⟨h.orderly, fun c _ => h.ascending first last hnew c⟩
  have hworking' : Working (task.withBeam k supply) first last (p', []) :=
    ⟨h.orderly', fun c _ => h.ascending' first last hnew c⟩
  obtain ⟨q', hstep', hbuilt⟩ := hbeside.buildSpan hc hready hf hl hworking hworking'
    (fun i j _ => h.cats i j)
    (fun i j c hpart => ⟨fun t ht => (h.fits i j c t ht).1, fun t ht => (h.fits i j c t ht).2,
      (h.behind i j (hpartBehind i j hpart) c).2⟩)
    (fun i j c hpart => (h.behind i j (hpartBehind i j hpart) c).1)
    (ruleLocal_cover hlocal helse.sound.distinct hf hl (fun i j hpart => (hparts i j hpart).1)
      fun i j c hpart => (hparts i j hpart).2 c)
    (fun rule hr hu hb => by
      have hunary := hlocal.unary rule hr hu first last hf hl hb
      rwa [map_over_takes, helse.trees first last (not_mem_behind hspans)] at hunary)
    hstep
  obtain ⟨-, hlater'⟩ := step_buildSpan hlim hquiet hready h.orderly'.sound hf hl hstep'
  exact ⟨q', hstep', h.next hlater hlater' hbuilt⟩

/-- **A whole text**: a parse with a smaller beam succeeds where the one with the larger beam does, and has the best
trees of every cell. -/
theorem run_inPace [Score.Exact α] (hc : task.Comparable k supply) (hready : Ready rules unaries)
    (h : run task (trieOf rules) unaries = .ok p)
    (hlocal : Chart.RuleLocal task rules p.chart p.arena) :
    ∃ p', run (task.withBeam k supply) (trieOf rules) unaries = .ok p' ∧
      InPace task k supply (spansByLength task.length) p p' :=
  foldlM_lockstep_rest (R := InPace task k supply)
    (g := BottomUp.buildSpan (task.withBeam k supply) (trieOf rules) unaries) (inPace_seed task k supply hlocal.tokens)
    (fun _ _ _ _ _ _ hspans hin hstep hrest =>
      hin.buildSpan hc hready hspans hstep hrest hlocal) h

theorem sound_run (hlim : task.limit = none) (hq : task.beam.Quiet) (hready : Ready rules unaries)
    (h : run task (trieOf rules) unaries = .ok p) : p.Sound task :=
  (elsewhere_of_foldlM hlim hq hready (sound_seed task) (fun _ hs => hs) h).sound

/-- Outside the text there is nothing. -/
theorem treesAt_run_of_not_mem (hlim : task.limit = none) (hq : task.beam.Quiet) (hready : Ready rules unaries)
    (h : run task (trieOf rules) unaries = .ok p) {f l : Nat} (hn : (f, l) ∉ spansByLength task.length) (c : String) :
    p.treesAt f l c = [] := by
  have helse := elsewhere_of_foldlM hlim hq hready (sound_seed task) (fun _ hs => hs) h
  rw [helse.trees f l hn, treesAt_seed, List.filter_eq_nil_iff]
  intro t ht hat
  obtain ⟨d, hd, rfl⟩ := List.mem_map.mp ht
  obtain ⟨hf, hl, -⟩ := mem_ratedTerminals hd
  unfold DerivationTree.isAt at hat
  simp only [Bool.and_eq_true, beq_iff_eq] at hat
  refine hn (mem_spansByLength.mpr ⟨?_, ?_⟩)
  · rw [← hat.1.1, ← hat.1.2]
    exact hf
  · rw [← hat.1.2]
    exact hl

/-- **Every cell of the narrow parse** has the first `k` trees of the wide one. -/
theorem treesAt_withBeam [Score.Exact α] (hc : task.Comparable k supply) (hready : Ready rules unaries)
    (h : run task (trieOf rules) unaries = .ok p)
    (hlocal : Chart.RuleLocal task rules p.chart p.arena) :
    ∃ p', run (task.withBeam k supply) (trieOf rules) unaries = .ok p' ∧ p'.chart.length = p.chart.length ∧
      ∀ f l c, p'.treesAt f l c = (p.treesAt f l c).take k := by
  obtain ⟨p', hp', hpace⟩ := run_inPace hc hready h hlocal
  refine ⟨p', hp', hpace.orderly'.sound.length.trans hpace.orderly.sound.length.symm, fun f l c => ?_⟩
  by_cases hm : (f, l) ∈ spansByLength task.length
  case pos => exact (hpace.behind f l hm c).1
  case neg =>
    rw [hpace.ahead f l hm, treesAt_run_of_not_mem hc.limit hc.quiet hready h hm]
    exact List.take_nil.symm

end BottomUp

/-! ## Parsers -/

/-- Parsing bottom up is filling the chart and concluding from it. -/
theorem Parser.parse_eq_ok_iff {parser : Parser α} (hkind : parser.options.kind = .bottomUp) {weights : Weights α}
    {ex : Example} {learning : Bool} {r : ParseResult α} :
    parser.parse weights ex learning = .ok r ↔
      ∃ p, BottomUp.run (parser.task weights ex) parser.trie parser.unaries = .ok p ∧
        parser.conclude ex learning p = r := by
  have hinfer : parser.infer weights ex = BottomUp.run (parser.task weights ex) parser.trie parser.unaries := by
    unfold infer
    rw [hkind]
  unfold parse
  rw [bind_eq_ok, hinfer]
  constructor
  · rintro ⟨p, hp, hr⟩
    exact ⟨p, hp, Except.ok.inj hr⟩
  · rintro ⟨p, hp, rfl⟩
    exact ⟨p, hp, rfl⟩

/-- The scores in a cell of a result. -/
theorem Parser.scores_conclude (parser : Parser α) (ex : Example) (learning : Bool) (p : Progress α) (first last : Nat)
    (cat : String) :
    ((parser.conclude ex learning p).chart.get first last cat).map (parser.conclude ex learning p).arena.score =
      (p.treesAt first last cat).map fun t => t.label.score := by
  unfold treesAt cellOf
  rw [List.map_map]
  refine List.map_congr_left fun i _ => ?_
  show ((parser.conclude ex learning p).arena.get i).label.score = (p.arena.unfold i).label.score
  rw [← Arena.label_unfold, unfold_arena_conclude]

/-- The scores of the predictions of a result. -/
theorem Parser.scores_predictions (parser : Parser α) (ex : Example) (learning : Bool) (p : Progress α) :
    (parser.conclude ex learning p).predictions.map (parser.conclude ex learning p).arena.score =
      (p.treesAt 0 p.chart.length rootCat).map fun t => t.label.score :=
  scores_conclude parser ex learning p 0 p.chart.length rootCat

/-- **A smaller beam keeps the best of a larger one.** Let scores be exact. For a grammar whose left-hand sides are
categories, let a parser search bottom up without a limit and without noise, and keep the best of each cell. A parser
with a beam of another size can then be made as well. Wherever its beam has room for one derivation and for no more
than the other one's, and the other one succeeds with a chart in which scores go by rule and span, it succeeds; the
scores in each cell of its chart, and those of its predictions, are the first of those of the other parser. The two
may number their derivations as they like. -/
theorem Parser.parse_beamSize_le [Score.Exact α] {rules : List Rule} {options : ParserOptions α} {ctx : SemContext}
    {executor : Executor} {extractor : FeatureExtractor α} {evaluator : ValueEvaluator α} {wide : Parser α}
    {supply : Nat → Nat} (hwide : Parser.ofRules rules options ctx executor extractor evaluator = .ok wide)
    (hkind : options.kind = .bottomUp) (htop : options.policy = .topK) (hlimit : options.limit = none)
    (hnoise : Score.lt Score.zero options.noise = false) (hcat : ∀ r ∈ rules, isCat r.lhs = true)
    (hs : StrictMono options.supply) (hs' : StrictMono supply) (size : Nat) :
    ∃ narrow,
      Parser.ofRules rules { options with beamSize := size, supply } ctx executor extractor evaluator = .ok narrow ∧
      ∀ (weights : Weights α) (ex : Example) (learning : Bool) (r : ParseResult α),
        1 ≤ ex.beamSize.getD size → ex.beamSize.getD size ≤ ex.beamSize.getD options.beamSize →
        wide.parse weights ex learning = .ok r →
        Chart.RuleLocal (wide.task weights ex) rules r.chart r.arena →
          ∃ r', narrow.parse weights ex learning = .ok r' ∧
            (∀ first last cat, (r'.chart.get first last cat).map r'.arena.score =
              ((r.chart.get first last cat).map r.arena.score).take (ex.beamSize.getD size)) ∧
            r'.predictions.map r'.arena.score =
              (r.predictions.map r.arena.score).take (ex.beamSize.getD size) := by
  obtain ⟨unaries, coarse, hsort, hcoarse, rfl⟩ := (ofRules_bottomUp_eq_ok_iff hkind).mp hwide
  refine ⟨_, (ofRules_bottomUp_eq_ok_iff (by exact hkind)).mpr ⟨unaries, coarse, hsort, hcoarse, rfl⟩, ?_⟩
  intro weights ex learning r hpos hle hr hlocal
  obtain ⟨p, hp, rfl⟩ := (parse_eq_ok_iff hkind).mp hr
  have hlocal := hlocal.congr (unfold_arena_conclude _ ex learning p).symm
  obtain ⟨p', hp', hlength, htrees⟩ := BottomUp.treesAt_withBeam ⟨hpos, hle, htop, hlimit, by exact hnoise, hs, hs'⟩
    ⟨hcat, hsort⟩ hp hlocal
  refine ⟨_, (parse_eq_ok_iff hkind).mpr ⟨p', hp', rfl⟩, fun first last cat => ?_, ?_⟩
  · rw [scores_conclude, scores_conclude, htrees, List.map_take]
  · rw [scores_predictions, scores_predictions, hlength, htrees, List.map_take]

theorem Parser.extractor_of_ofRules {rules : List Rule} {options : ParserOptions α} {ctx : SemContext}
    {executor : Executor} {extractor : FeatureExtractor α} {evaluator : ValueEvaluator α} {parser : Parser α}
    (h : Parser.ofRules rules options ctx executor extractor evaluator = .ok parser) :
    parser.extractor = extractor := by
  unfold Parser.ofRules at h
  simp only [bind_eq_ok] at h
  obtain ⟨_, -, _, -, _, -, hparser⟩ := h
  rw [← Except.ok.inj hparser]

/-- No category stands twice in a cell of a result. -/
theorem Parser.distinct_chart {rules : List Rule} {options : ParserOptions α} {ctx : SemContext}
    {executor : Executor} {extractor : FeatureExtractor α} {evaluator : ValueEvaluator α} {parser : Parser α}
    (hparser : Parser.ofRules rules options ctx executor extractor evaluator = .ok parser)
    (hkind : options.kind = .bottomUp) (hlimit : options.limit = none)
    (hnoise : Score.lt Score.zero options.noise = false) (hcat : ∀ r ∈ rules, isCat r.lhs = true)
    {weights : Weights α} {ex : Example} {learning : Bool} {r : ParseResult α}
    (h : parser.parse weights ex learning = .ok r) : r.chart.Distinct := by
  obtain ⟨unaries, coarse, hsort, hcoarse, rfl⟩ := (ofRules_bottomUp_eq_ok_iff hkind).mp hparser
  obtain ⟨p, hp, rfl⟩ := (parse_eq_ok_iff hkind).mp h
  exact (BottomUp.sound_run hlimit (by exact hnoise) ⟨hcat, hsort⟩ hp).distinct

/-! ### Choices -/

/-- The result of a constant. -/
def ConstantFn.candidate (fn : ConstantFn) (ctx : SemContext) : Candidate where
  formula := fn.formula
  type := fn.type.getD (ctx.inferType fn.formula)

omit [Score α] in
theorem Composition.items_constant {task : Task α} {c : Composition α} {fn : ConstantFn} (h : c.rule.sem = fn.toFn) :
    (c.results task).items = [.ok (fn.candidate task.ctx)] := by
  unfold results
  rw [h]
  rfl

/-- A constant adds the same whatever it is given. -/
theorem Composition.localScores_constant {task : Task α} (hrules : task.extractor = .rules) {c : Composition α}
    {fn : ConstantFn} (h : c.rule.sem = fn.toFn) :
    c.localScores task = [task.weights.dot (c.rule.addFeatures Table.empty)] := by
  have hkeeps : keeps task (fn.candidate task.ctx) = true := by
    show (!(task.pruneErrors && false)) = true
    rw [Bool.and_false]
    rfl
  unfold localScores
  rw [items_constant h]
  show List.map _ (List.filter _ [fn.candidate task.ctx]) = _
  rw [List.filter_cons_of_pos hkeeps, List.filter_nil, List.map_singleton, localScore_rules hrules]
  rfl

/-- With the features for rules, a token or a phrase has a score, that of no features. -/
theorem isNumber_of_mem_ratedTerminals [Score.Exact α] {task : Task α} (hextractor : task.extractor = .rules)
    {d : Derivation α} (hd : d ∈ ratedTerminals task) : Score.IsNumber d.score := by
  obtain ⟨e, he, rfl⟩ := List.mem_map.mp hd
  obtain ⟨t, -, n, rfl⟩ := exists_terminal he
  have hunscored : (Derivation.terminal t.cat t.first t.last t.text t.canonical n : Derivation α).isScored = false := by
    show (!Score.isNaN (Score.nan : α)) = false
    rw [Score.Exact.isNaN_nan]
    rfl
  show Score.IsNumber ((start task).rated task _).label.score
  rw [label_rated, hunscored, if_neg Bool.false_ne_true, extract, hextractor]
  exact Score.isNumber_negZero.add Score.isNumber_negZero

/-- In a grammar of constants, scores go by rule and span. -/
theorem Chart.RuleLocal.of_constants [Score.Exact α] {task : Task α} (hextractor : task.extractor = .rules)
    {rules : List Rule} {chart : Chart α} {arena : Arena α} (hd : chart.Distinct)
    (hrules : ∀ r ∈ rules, ∃ fn : ConstantFn, r.sem = fn.toFn)
    (hnumbers : ∀ r ∈ rules, Score.IsNumber (task.weights.dot (r.addFeatures Table.empty))) :
    Chart.RuleLocal task rules chart arena := by
  refine .of_rules (fun d hd => isNumber_of_mem_ratedTerminals hextractor hd) hd fun l hl => ?_
  refine .of_weights (fun r _ _ => [task.weights.dot (r.addFeatures Table.empty)]) (fun c hc => ?_)
    fun c hc s hs => ?_
  · obtain ⟨fn, hfn⟩ := hrules c.rule (hl c hc)
    exact Composition.localScores_constant hextractor hfn
  · rw [List.mem_singleton.mp hs]
    exact hnumbers c.rule (hl c hc)

/-- Sorting, in a form in which cells of two derivations can be computed. -/
def Arena.sortPair (arena : Arena α) (l : List Nat) : List Nat :=
  match l with
  | [i, j] => if (arena.get i).before (arena.get j) then [i, j] else [j, i]
  | l => arena.sort l

theorem Arena.sort_eq_sortPair (arena : Arena α) (l : List Nat) : arena.sort l = arena.sortPair l := by
  unfold sortPair
  split
  case h_1 i j =>
    unfold sort
    simp [List.mergeSort, List.MergeSort.Internal.splitInTwo, List.merge]
  case h_2 => rfl

/-- The scores of the predictions for a text. -/
def predictedScores (rules : List Rule) (options : ParserOptions α) (weights : Weights α) (ex : Example) :
    Option (List α) := do
  let parser ← (Parser.ofRules rules options {} .matching).toOption
  let r ← (parser.parse weights ex false).toOption
  return r.predictions.map r.arena.score

theorem exists_of_predictedScores {rules : List Rule} {options : ParserOptions α} {weights : Weights α} {ex : Example}
    {scores : List α} (h : predictedScores rules options weights ex = some scores) :
    ∃ parser r, Parser.ofRules rules options {} .matching = .ok parser ∧ parser.parse weights ex false = .ok r ∧
      r.predictions.map r.arena.score = scores := by
  unfold predictedScores at h
  cases hparser : Parser.ofRules rules options {} .matching with
  | error e =>
    rw [hparser] at h
    cases h
  | ok parser =>
    rw [hparser] at h
    cases hr : parser.parse weights ex false with
    | error e => simp [Except.toOption, hr] at h
    | ok r =>
      simp only [Except.toOption, hr, Option.pure_def, Option.bind_eq_bind, Option.bind_some, Option.some.injEq] at h
      exact ⟨parser, r, rfl, hr, h⟩

/-- A grammar that has two terms for each token. -/
def choiceRules : List Rule := [
  { lhs := "$A", rhs := ["$TOKEN"], sem := (ConstantFn.new (.ofString "low") none).toFn },
  { lhs := "$A", rhs := ["$TOKEN"], sem := (ConstantFn.new (.ofString "high") none).toFn },
  { lhs := "$ROOT", rhs := ["$A", "2"], sem := (ConstantFn.new (.ofString "both") none).toFn }]

/-- The second term is worth more. -/
def choiceWeights : Weights ExactNumber :=
  Weights.new.set (Features.key "rule" "$A -> $TOKEN (ConstantFn (string high))") (.of 1)

theorem scores_choice :
    predictedScores choiceRules { ParserOptions.standard with beamSize := 2 } choiceWeights sampleText =
      some [.of 1, .of 0] := by
  delta predictedScores Parser.parse Parser.infer BottomUp.run BottomUp.buildSpan BottomUp.applyUnary
    BottomUp.pruneOnce Chart.prune
  simp only [Arena.sort_eq_sortPair]
  decide +kernel

/-- With room for two derivations in a cell both terms are used, and with room for one the better one is. -/
theorem Parser.parse_beamSize_le_sample : ∃ (wide narrow : Parser ExactNumber) (r r' : ParseResult ExactNumber),
    Parser.ofRules choiceRules { ParserOptions.standard with beamSize := 2 } {} .matching = .ok wide ∧
      Parser.ofRules choiceRules { ParserOptions.standard with beamSize := 1, supply := fun i => 2 * i } {} .matching =
        .ok narrow ∧
      wide.parse choiceWeights sampleText false = .ok r ∧ r.predictions.map r.arena.score = [.of 1, .of 0] ∧
      narrow.parse choiceWeights sampleText false = .ok r' ∧ r'.predictions.map r'.arena.score = [.of 1] := by
  obtain ⟨wide, r, hwide, hr, hscores⟩ := exists_of_predictedScores scores_choice
  have hdouble : StrictMono fun i : Nat => 2 * i := fun i j h => by
    show 2 * i < 2 * j
    omega
  obtain ⟨narrow, hnarrow, hparse⟩ := Parser.parse_beamSize_le hwide rfl rfl rfl (by decide +kernel) (by decide)
    strictMono_id hdouble 1
  have hconstants : ∀ rule ∈ choiceRules, ∃ fn : ConstantFn, rule.sem = fn.toFn := by
    intro rule hrule
    simp only [choiceRules, List.mem_cons, List.not_mem_nil, or_false] at hrule
    rcases hrule with rfl | rfl | rfl
    · exact ⟨_, rfl⟩
    · exact ⟨_, rfl⟩
    · exact ⟨_, rfl⟩
  have hnumbers : ∀ rule ∈ choiceRules, Score.isNaN (choiceWeights.dot (rule.addFeatures Table.empty)) = false := by
    decide +kernel
  have hdistinct : r.chart.Distinct := Parser.distinct_chart hwide rfl rfl (by decide +kernel) (by decide) hr
  obtain ⟨r', hr', -, hscores'⟩ := hparse choiceWeights sampleText false r (by decide) (by decide) hr
    (.of_constants (Parser.extractor_of_ofRules hwide) hdistinct hconstants hnumbers)
  refine ⟨wide, narrow, r, r', hwide, hnarrow, hr, hscores, hr', ?_⟩
  rw [hscores', hscores]
  rfl

/-! ### Results that are dropped -/

/-- Scores go by rule and span for all results, also for those that are dropped. -/
def Composition.OfferedByRule (task : Task α) (rules : List Rule) : Prop :=
  ∀ c c' : Composition α, c.rule ∈ rules → c.rule = c'.rule → c.first = c'.first → c.last = c'.last →
    List.Forall₂ (fun t u => t.sameCell u = true) c.children c'.children →
      c.offeredScores task = c'.offeredScores task ∧ ∀ s ∈ c.offeredScores task, Score.IsNumber s

/-- Passes the only child through, and executes it. -/
def executingFn : SemanticFn where
  tree := .list [.leaf "ExecFn"]
  apply _ _ call :=
    match call.children with
    | [child] => .single { child.pass with value := some (Executor.arithmetic.execute child.formula) }
    | children => .error (.arity 1 children.length)

/-- A grammar that has two terms for a token, of which the first one has no value. -/
def executingRules : List Rule := [
  { lhs := "$A", rhs := ["a"], sem := (ConstantFn.new (.var "x") none).toFn },
  { lhs := "$A", rhs := ["a"], sem := (ConstantFn.new (.ofString "b") none).toFn },
  { lhs := "$ROOT", rhs := ["$A"], sem := executingFn }]

/-- A text of one token. -/
def shortText : Example where
  utterance := "a"
  info := { tokens := ["a"], lemmas := ["a"] }

theorem scores_executing :
    predictedScores executingRules { ParserOptions.standard with beamSize := 2, pruneErrors := true }
        (Weights.new : Weights ExactNumber) shortText = some [.of 0] ∧
      predictedScores executingRules { ParserOptions.standard with beamSize := 1, pruneErrors := true }
        (Weights.new : Weights ExactNumber) shortText = some [] := by
  delta predictedScores Parser.parse Parser.infer BottomUp.run BottomUp.buildSpan BottomUp.applyUnary
    BottomUp.pruneOnce Chart.prune
  simp only [Arena.sort_eq_sortPair]
  decide +kernel

theorem Composition.offeredScores_constant {task : Task α} (hrules : task.extractor = .rules) {c : Composition α}
    {fn : ConstantFn} (h : c.rule.sem = fn.toFn) :
    c.offeredScores task = [task.weights.dot (c.rule.addFeatures Table.empty)] := by
  unfold offeredScores
  rw [items_constant h]
  show [c.localScore task (fn.candidate task.ctx)] = _
  rw [localScore_rules hrules]
  rfl

/-- Applied to one child, the function that executes has one result, and otherwise none. -/
theorem Composition.offeredScores_executing {task : Task α} (hrules : task.extractor = .rules) {c : Composition α}
    (h : c.rule.sem = executingFn) :
    c.offeredScores task =
      if c.children.length = 1 then [task.weights.dot (c.rule.addFeatures Table.empty)] else [] := by
  have hresults : c.results task = executingFn.apply task.ctx task.ex c.call := by
    unfold results
    rw [h]
  unfold offeredScores
  rw [hresults]
  unfold executingFn call
  match c.children with
  | [] => rfl
  | [t] =>
    show [c.localScore task _] = [_]
    rw [localScore_rules hrules]
    rfl
  | t :: u :: rest =>
    have hmany : ¬(t :: u :: rest).length = 1 := by simp
    rw [if_neg hmany]
    rfl

theorem offeredByRule_executing (task : Task ExactNumber) (hextractor : task.extractor = .rules)
    (hweights : task.weights = Weights.new) :
    Composition.OfferedByRule task executingRules := by
  have hnumbers : ∀ rule ∈ executingRules,
      Score.isNaN ((Weights.new : Weights ExactNumber).dot (rule.addFeatures Table.empty)) = false := by
    decide +kernel
  intro c c' hrule hsame _ _ hcells
  have hnumber := hnumbers c.rule hrule
  rw [← hweights] at hnumber
  have hcases : (∃ fn : ConstantFn, c.rule.sem = fn.toFn) ∨ c.rule.sem = executingFn := by
    simp only [executingRules, List.mem_cons, List.not_mem_nil, or_false] at hrule
    rcases hrule with hrule | hrule | hrule
    · exact .inl ⟨_, by rw [hrule]⟩
    · exact .inl ⟨_, by rw [hrule]⟩
    · exact .inr (by rw [hrule])
  rcases hcases with ⟨fn, hfn⟩ | hfn
  · rw [Composition.offeredScores_constant hextractor hfn, Composition.offeredScores_constant hextractor (hsame ▸ hfn),
      ← hsame]
    exact ⟨rfl, List.forall_mem_singleton.mpr hnumber⟩
  · rw [Composition.offeredScores_executing hextractor hfn,
      Composition.offeredScores_executing hextractor (hsame ▸ hfn), ← hsame, hcells.length_eq]
    refine ⟨rfl, ?_⟩
    split
    case isTrue => exact List.forall_mem_singleton.mpr hnumber
    case isFalse => exact fun s hs => absurd hs List.not_mem_nil

/-- **The results that count are those that are kept.** Here each rule has one result with the same features, whatever
it is given. But one of them is an error, and errors are dropped: the only derivation that a beam of one keeps comes to
nothing, while the second one that a beam of two keeps becomes a prediction. -/
theorem Parser.parse_beamSize_not : ∃ (wide narrow : Parser ExactNumber) (r r' : ParseResult ExactNumber),
    Parser.ofRules executingRules { ParserOptions.standard with beamSize := 2, pruneErrors := true } {} .matching =
        .ok wide ∧
      Parser.ofRules executingRules { ParserOptions.standard with beamSize := 1, pruneErrors := true } {} .matching =
        .ok narrow ∧
      (∀ rule ∈ executingRules, isCat rule.lhs = true) ∧
      Composition.OfferedByRule (wide.task Weights.new shortText) executingRules ∧
      wide.parse Weights.new shortText false = .ok r ∧ narrow.parse Weights.new shortText false = .ok r' ∧
      r'.predictions.map r'.arena.score ≠ (r.predictions.map r.arena.score).take 1 := by
  obtain ⟨wide, r, hwide, hr, hscores⟩ := exists_of_predictedScores scores_executing.1
  obtain ⟨narrow, r', hnarrow, hr', hscores'⟩ := exists_of_predictedScores scores_executing.2
  refine ⟨wide, narrow, r, r', hwide, hnarrow, by decide,
    offeredByRule_executing _ (Parser.extractor_of_ofRules hwide) rfl, hr, hr', ?_⟩
  rw [hscores, hscores']
  exact (List.cons_ne_nil _ _).symm

end Parlance
