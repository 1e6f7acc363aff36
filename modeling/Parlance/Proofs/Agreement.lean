import Parlance.Proofs.Balance
import Parlance.Proofs.CoarseParse

/-!
# `Proofs.Agreement` — two kinds of search, the same trees

Searching span by span and taking the best derivations first find the same trees in every cell, as long as nothing
is dropped: no cell fills the beam, and no score is minus infinity. What can differ is the order in which trees are
found, and the scores, which the second kind computes anew for the roots in the end.

## Contents
- **Scores.** `unscored`, and what computing scores anew leaves alone.
- **Steps.** `search_of_le`: more steps than it takes make no difference.
- **Parsers.** `infer_bestFirst`.
-/

namespace Parlance

open Progress

variable {α : Type} [Score α]

/-! ## Scores -/

/-- What a derivation says by itself, but for its score. -/
def Label.unscored (l : Label α) : Label α := { l with score := Score.nan }

/-- A tree without scores. -/
def DerivationTree.unscored : DerivationTree α → DerivationTree α
  | node label children => node label.unscored (children.map fun c => unscored c)

theorem DerivationTree.unscored_node (label : Label α) (children : List (DerivationTree α)) :
    (node label children).unscored = node label.unscored (children.map unscored) := by
  rw [unscored]

/-- **Two arenas with the same derivations**, but for their scores. -/
def Arena.Alike (a b : Arena α) : Prop := ∀ i, ∃ score, b.get i = { a.get i with score }

namespace Arena

variable {a b c : Arena α}

theorem Alike.refl (a : Arena α) : a.Alike a := fun i => ⟨(a.get i).score, rfl⟩

theorem Alike.trans (h : a.Alike b) (h' : b.Alike c) : a.Alike c := fun i => by
  obtain ⟨score, hb⟩ := h i
  obtain ⟨score', hc⟩ := h' i
  exact ⟨score', by rw [hc, hb]⟩

theorem alike_modify (a : Arena α) (i : Nat) (score : α) : a.Alike (a.modify i fun d => { d with score }) := by
  intro k
  unfold get get? modify
  rw [Array.getElem?_modify]
  split
  · cases a.items[k]? with
    | none => exact ⟨_, rfl⟩
    | some d => exact ⟨score, rfl⟩
  · exact ⟨_, rfl⟩

/-- Computing scores anew changes nothing but scores. -/
theorem alike_rescore (weights : Weights α) (i : Nat) (arena : Arena α) :
    arena.Alike (arena.rescore weights i).1 := by
  induction i using Nat.strongRecOn generalizing arena with
  | ind i ih =>
    have hall : ∀ (l : List Nat) (arena : Arena α) (total : α),
        arena.Alike (arena.rescoreAll weights i total l).1 := by
      intro l
      induction l with
      | nil =>
        intro arena total
        rw [rescoreAll]
        exact .refl arena
      | cons c l ihl =>
        intro arena total
        rw [rescoreAll]
        split
        · rename_i hc
          exact (ih c hc arena).trans (ihl _ _)
        · exact ihl _ _
    rw [rescore]
    exact (hall _ _ _).trans (alike_modify _ i _)

/-- Arenas that are alike have the same trees, but for scores. -/
theorem Alike.unscored_unfold (h : a.Alike b) (i : Nat) : (b.unfold i).unscored = (a.unfold i).unscored := by
  induction i using Nat.strongRecOn with
  | ind i ih =>
    obtain ⟨score, hd⟩ := h i
    rw [unfold_eq_filter, unfold_eq_filter, DerivationTree.unscored_node, DerivationTree.unscored_node, hd,
      List.map_map, List.map_map]
    congr 1
    exact List.map_congr_left fun c hc => ih c (of_decide_eq_true (List.mem_filter.mp hc).2)

end Arena

/-- **Ranking the roots anew** leaves every cell with its trees, but for scores. -/
theorem BestFirst.unscored_rerank (task : Task α) (p : Progress α) (first last : Nat) (cat : String) :
    (((rerank task p).treesAt first last cat).map DerivationTree.unscored : Multiset (DerivationTree α)) =
      (p.treesAt first last cat).map DerivationTree.unscored := by
  have halike : p.arena.Alike (rerank task p).arena :=
    foldl_induct (P := fun _ arena => p.arena.Alike arena) p.roots p.arena (.refl _)
      fun _ i _ arena _ h => h.trans (Arena.alike_rescore task.weights i arena)
  have hperm : ((rerank task p).chart.get first last cat).Perm (p.chart.get first last cat) :=
    Chart.get_sortCell_perm _ _ _ _ _ _ _ _
  unfold treesAt cellOf
  rw [List.map_map, List.map_map]
  refine (Multiset.coe_eq_coe.mpr (hperm.map _)).trans (congrArg _ (List.map_congr_left fun i _ => ?_))
  exact halike.unscored_unfold i

/-! ## Steps -/

/-- More steps than a search takes make no difference. -/
theorem BestFirst.search_of_le {options : Options α} {index : SiblingIndex} {task : Task α} {s s' : Search α}
    {fuel more : Nat} (hle : fuel ≤ more) (h : search options index task fuel s = .ok s') :
    search options index task more s = .ok s' := by
  -- both searches take the same steps, until the first one ends
  induction fuel generalizing more s with
  | zero => cases h
  | succ fuel ih =>
    obtain ⟨more, rfl⟩ := Nat.exists_eq_add_of_le' hle
    rw [← Nat.add_assoc]
    unfold search at h ⊢
    split
    · rename_i hdone
      rwa [if_pos hdone] at h
    · rename_i hgo
      rw [if_neg hgo] at h
      cases hpop : pop? options s with
      | none => rwa [hpop] at h
      | some taken =>
        obtain ⟨item, s₁⟩ := taken
        rw [hpop] at h
        obtain ⟨s₂, hstep, hrest⟩ := bind_eq_ok.mp h
        refine bind_eq_ok.mpr ⟨s₂, hstep, ?_⟩
        split
        · rename_i hlimit
          rwa [if_pos hlimit] at hrest
        · rename_i hlimit
          rw [if_neg hlimit] at hrest
          exact ih (by omega) hrest

/-! ## Parsers -/

/-- What a bottom-up parse found is a goal for other searches, if no cell fills the beam and no score is minus
infinity. -/
theorem Harvest.goal {task : Task α} {rules : List Rule} {p : Progress α} {forest : Multiset (DerivationTree α)}
    (h : Harvest task rules p forest) (hcat : ∀ r ∈ rules, isCat r.lhs = true)
    (hsize : ∀ first last cat, (p.chart.get first last cat).length < task.beam.size)
    (hscores : ∀ first last cat, ∀ i ∈ p.chart.get first last cat,
      Score.eq (p.arena.score i) Score.negInf = false) : BestFirst.Goal task rules forest := by
  refine ⟨h.fixed, h.succeeds, fun t ht => ?_, fun first last cat hf hl => ?_⟩
  · have hlies : t.LiesIn task.length := by
      rw [h.fixed] at ht
      exact liesIn_of_mem_consequences hcat ht
    have hcell : t ∈ (p.treesAt t.label.first t.label.last t.label.cat : Multiset (DerivationTree α)) := by
      rw [h.cells _ _ _ hlies.1 hlies.2.1]
      exact Multiset.mem_filter.mpr ⟨ht, DerivationTree.isAt_iff.mpr ⟨rfl, rfl, rfl⟩⟩
    obtain ⟨i, hi, hunfold⟩ := List.mem_map.mp (Multiset.mem_coe.mp hcell)
    have hscore := hscores _ _ _ i hi
    unfold BestFirst.Counts
    rw [← hunfold, Arena.label_unfold]
    exact hscore
  · rw [← h.cells first last cat hf hl, Multiset.coe_card]
    exact (List.length_map _).trans_lt (hsize first last cat)

/-- **A search for the best derivations finds what a bottom-up parse found.** -/
theorem BestFirst.exists_run {task : Task α} {rules unaries : List Rule} {index : SiblingIndex} {p : Progress α}
    (h : BottomUp.run task (trieOf rules) unaries = .ok p) (hp : Prepared task rules index)
    (hc : task.coarse = none) (hq : task.beam.Quiet) (hr : BottomUp.Ready rules unaries)
    (hsize : ∀ first last cat, (p.chart.get first last cat).length < task.beam.size)
    (hdropped : task.beam.policy = .topK ∨ p.chart.stats.fellOff = false)
    (hscores : ∀ first last cat, ∀ i ∈ p.chart.get first last cat,
      Score.eq (p.arena.score i) Score.negInf = false) (options : Options α) :
    ∃ n q, (∀ steps, n ≤ steps → run options index task steps = .ok q) ∧
      ∀ first last cat, first < last → last ≤ task.length →
        ((q.treesAt first last cat).map DerivationTree.unscored : Multiset (DerivationTree α)) =
          (p.treesAt first last cat).map DerivationTree.unscored := by
  have hfell : p.chart.stats.fellOff = false :=
    hdropped.elim (fun htop => BottomUp.fellOff_of_length hp.limit hq htop hr h hsize) id
  obtain ⟨forest, hharvest⟩ := exists_harvest hp.limit hp.pruneErrors hc hq hr hp.literal h hfell
  have hgoal := hharvest.goal hr.cats hsize hscores
  obtain ⟨s, hseed, hs⟩ := exists_seed hgoal hp options
  obtain ⟨s', hsearch, hfiled, hfound⟩ := hs.exists_search hgoal hp (forest.card + 1) (by omega)
  refine ⟨forest.card + 1, rerank task s'.progress, fun steps hsteps => ?_, fun first last cat hf hl => ?_⟩
  · exact bind_eq_ok.mpr ⟨s, hseed, bind_eq_ok.mpr ⟨s', search_of_le hsteps hsearch, rfl⟩⟩
  · have hcells : (s'.progress.treesAt first last cat : Multiset (DerivationTree α)) = p.treesAt first last cat := by
      rw [hfiled.cells first last cat hf hl, hfound, hharvest.cells first last cat hf hl]
    rw [unscored_rerank, ← Multiset.map_coe, hcells, Multiset.map_coe]

namespace Parser

/-- What makes up a parser that takes the best derivations first. -/
theorem ofRules_bestFirst_eq_ok {rules : List Rule} {options : ParserOptions α} {ctx : SemContext}
    {executor : Executor} {extractor : FeatureExtractor α} {evaluator : ValueEvaluator α} {parser : Parser α}
    {search : BestFirst.Options α} (hkind : options.kind = .bestFirst search)
    (h : Parser.ofRules rules options ctx executor extractor evaluator = .ok parser) :
    ∃ unaries coarse siblings, prepare options.coarse (CoarseParser.ofRules rules) = .ok coarse ∧
      SiblingIndex.ofRules rules = .ok siblings ∧
      { options, ctx, extractor, executor, evaluator, unaries, coarse, trie := trieOf rules, siblings } = parser := by
  unfold Parser.ofRules at h
  simp only [bind_eq_ok] at h
  obtain ⟨unaries, -, coarse, hcoarse, siblings, hsiblings, hparser⟩ := h
  rw [hkind] at hsiblings
  cases hindex : SiblingIndex.ofRules rules with
  | error e =>
    rw [hindex] at hsiblings
    cases hsiblings
  | ok index =>
    rw [hindex] at hsiblings
    obtain rfl : some index = siblings := Except.ok.inj hsiblings
    exact ⟨unaries, coarse, index, hcoarse, rfl, Except.ok.inj hparser⟩

/-- The parser with another bound on its steps. -/
def withSteps (parser : Parser α) (steps : Nat) : Parser α :=
  { parser with options := { parser.options with steps } }

/-- **The two kinds of search find the same trees.** Let a grammar of rules with at most two symbols be accepted for
both kinds of search; its left-hand sides are categories, and its symbols have no blanks. Let a text have tokens
that are not empty, have no blanks, and are no categories that a rule takes. Without a coarse parse, a limit, noise,
or values that are looked at, let a bottom-up parse succeed, in which no cell fills the beam, nothing else was
dropped, and no score is minus infinity. Then a search that takes the best derivations first, or draws them by
whatever numbers, ends after some number of steps without an error, and every cell has the same trees, each as often,
but for scores. -/
theorem infer_bestFirst {rules : List Rule} {options : ParserOptions α} {search : BestFirst.Options α}
    {ctx : SemContext} {executor : Executor} {extractor : FeatureExtractor α} {evaluator : ValueEvaluator α}
    {bottomUp bestFirst : Parser α} {weights : Weights α} {ex : Example} {p : Progress α}
    (hbottomUp : Parser.ofRules rules { options with kind := .bottomUp } ctx executor extractor evaluator = .ok bottomUp)
    (hbestFirst : Parser.ofRules rules { options with kind := .bestFirst search } ctx executor extractor evaluator =
      .ok bestFirst)
    (hcat : ∀ r ∈ rules, isCat r.lhs = true) (hsymbols : ∀ r ∈ rules, ∀ s ∈ r.rhs, ' ' ∉ s.toList)
    (htokens : ∀ s ∈ ex.info.tokens, ' ' ∉ s.toList ∧ s ≠ "")
    (hliteral : ∀ i < ex.length, ∀ r ∈ rules, ex.token i ∈ r.rhs → isCat (ex.token i) = false)
    (hcoarse : options.coarse = false) (hlimit : options.limit = none)
    (hnoise : Score.lt Score.zero options.noise = false) (herr : options.pruneErrors = false)
    (h : bottomUp.infer weights ex = .ok p)
    (hsize : ∀ first last cat, (p.chart.get first last cat).length < (bottomUp.task weights ex).beam.size)
    (hdropped : options.policy = .topK ∨ p.chart.stats.fellOff = false)
    (hscores : ∀ first last cat, ∀ i ∈ p.chart.get first last cat,
      Score.eq (p.arena.score i) Score.negInf = false) :
    ∃ n q, (∀ steps, n ≤ steps → (bestFirst.withSteps steps).infer weights ex = .ok q) ∧
      ∀ first last cat, first < last → last ≤ ex.length →
        ((q.treesAt first last cat).map DerivationTree.unscored : Multiset (DerivationTree α)) =
          (p.treesAt first last cat).map DerivationTree.unscored := by
  obtain ⟨unaries, coarse, hsort, hprepare, rfl⟩ := (ofRules_bottomUp_eq_ok_iff rfl).mp hbottomUp
  obtain ⟨unaries', coarse', index, hprepare', hindex, rfl⟩ := ofRules_bestFirst_eq_ok rfl hbestFirst
  have hnone : prepare options.coarse (CoarseParser.ofRules rules) = .ok none := by
    rw [hcoarse]
    rfl
  obtain rfl : none = coarse := Except.ok.inj (hnone.symm.trans hprepare)
  obtain rfl : none = coarse' := Except.ok.inj (hnone.symm.trans hprepare')
  obtain ⟨hlength, hindexes⟩ := SiblingIndex.indexes_ofRules hindex
  unfold infer at h
  dsimp only at h
  exact BestFirst.exists_run h ⟨herr, hlimit, hindexes, hlength, hcat, hliteral, hsymbols, htokens⟩ rfl hnoise
    ⟨hcat, hsort⟩ hsize hdropped hscores search

end Parser

/-! ## Samples -/

/-- What a parse comes to: how many derivations it has, how many of them are roots, and whether all their scores are
above minus infinity. -/
def Parser.census (rules : List Rule) (options : ParserOptions α) (weights : Weights α) (ex : Example) :
    Option (Nat × Nat × Bool) := do
  let parser ← (Parser.ofRules rules options {} .matching).toOption
  let p ← (parser.infer weights ex).toOption
  return (p.arena.size, p.roots.length,
    (List.range p.arena.size).all fun i => !Score.eq (p.arena.score i) Score.negInf)

theorem Parser.exists_of_census {rules : List Rule} {options : ParserOptions α} {weights : Weights α} {ex : Example}
    {size roots : Nat} {counts : Bool} (h : census rules options weights ex = some (size, roots, counts)) :
    ∃ parser p, Parser.ofRules rules options {} .matching = .ok parser ∧ parser.infer weights ex = .ok p ∧
      p.arena.size = size ∧ p.roots.length = roots ∧
      (counts = true → ∀ i < size, Score.eq (p.arena.score i) Score.negInf = false) := by
  unfold census at h
  cases hparser : Parser.ofRules rules options {} .matching with
  | error e => rw [hparser] at h; cases h
  | ok parser =>
    rw [hparser] at h
    cases hp : parser.infer weights ex with
    | error e => simp [Except.toOption, hp] at h
    | ok p =>
      simp only [Except.toOption, hp, Option.pure_def, Option.bind_eq_bind, Option.bind_some, Option.some.injEq,
        Prod.mk.injEq] at h
      obtain ⟨hsize, hroots, hcounts⟩ := h
      refine ⟨parser, p, rfl, hp, hsize, hroots, fun htrue i hi => ?_⟩
      rw [htrue, List.all_eq_true] at hcounts
      simpa using hcounts i (List.mem_range.mpr (hsize ▸ hi))

/-- A cell of a bottom-up parse has no more derivations than there are. -/
theorem Parser.length_get_infer {rules : List Rule} {options : ParserOptions α} {parser : Parser α}
    {weights : Weights α} {ex : Example} {p : Progress α}
    (hparser : Parser.ofRules rules options {} .matching = .ok parser)
    (hkind : options.kind = .bottomUp) (hcoarse : options.coarse = false) (hlimit : options.limit = none)
    (hnoise : Score.lt Score.zero options.noise = false) (herr : options.pruneErrors = false)
    (hcat : ∀ r ∈ rules, isCat r.lhs = true)
    (hliteral : ∀ i < ex.length, ∀ r ∈ rules, ex.token i ∈ r.rhs → isCat (ex.token i) = false)
    (h : parser.infer weights ex = .ok p) :
    p.Bounded ∧ ∀ first last cat, (p.chart.get first last cat).length ≤ p.arena.size := by
  obtain ⟨hsort, rfl, htrie, hprepare⟩ := ofRules_eq_ok hparser
  have hnone : parser.coarse = none := by
    rw [hcoarse] at hprepare
    exact (Except.ok.inj hprepare).symm
  unfold infer at h
  rw [hkind, htrie] at h
  have hdone : BottomUp.SpansDone (parser.task weights ex) rules (spansByLength ex.length) p :=
    BottomUp.spansDone_run hlimit herr (by simp [Parser.task, hnone])
      (show (parser.task weights ex).beam.Quiet from hnoise) ⟨hcat, hsort⟩ hliteral h
  have hsound := hdone.sound
  refine ⟨hsound.bounded, fun first last cat => ?_⟩
  have hsub := (hsound.nodup first last cat).subperm fun i hi =>
    List.mem_range.mpr (hsound.bounded first last cat i hi)
  exact hsub.length_le.trans_eq List.length_range

/-- Items are drawn by the same number each time, and results wait one by one. -/
def sampleSearch : BestFirst.Options Float := { sample := some fun _ => 0.5, unroll := true }

/-- Two terms are put together by both kinds of search, whatever is drawn. -/
theorem Parser.infer_bestFirst_sample : ∃ (bottomUp bestFirst : Parser Float) (p : Progress Float),
    Parser.ofRules sampleRules .standard {} .matching = .ok bottomUp ∧
      Parser.ofRules sampleRules { ParserOptions.standard with kind := .bestFirst sampleSearch } {} .matching =
        .ok bestFirst ∧
      bottomUp.infer Weights.new sampleText = .ok p ∧ p.roots.length = 1 ∧
      (∀ first last cat, (p.chart.get first last cat).length < (bottomUp.task Weights.new sampleText).beam.size) ∧
      (∀ first last cat, ∀ i ∈ p.chart.get first last cat, Score.eq (p.arena.score i) Score.negInf = false) ∧
      ∃ n q, (∀ steps, n ≤ steps → (bestFirst.withSteps steps).infer Weights.new sampleText = .ok q) ∧
        ∀ first last cat, first < last → last ≤ sampleText.length →
          ((q.treesAt first last cat).map DerivationTree.unscored : Multiset (DerivationTree Float)) =
            (p.treesAt first last cat).map DerivationTree.unscored := by
  obtain ⟨bottomUp, p, hbottomUp, hp, hsize, hroots, hcounts⟩ := exists_of_census
    (show census sampleRules (.standard : ParserOptions Float) .new sampleText = some (14, 1, true) by decide +kernel)
  obtain ⟨bestFirst, hbestFirst⟩ := exists_eq_ok (x := Parser.ofRules sampleRules
    { ParserOptions.standard with kind := .bestFirst sampleSearch } {} .matching) (by decide +kernel)
  have hliteral : ∀ i < sampleText.length, ∀ r ∈ sampleRules, sampleText.token i ∈ r.rhs →
      isCat (sampleText.token i) = false := by decide
  have hnoise : Score.lt Score.zero (Score.zero : Float) = false := by decide +kernel
  obtain ⟨hbounded, hlength⟩ := length_get_infer hbottomUp rfl rfl rfl hnoise rfl (by decide) hliteral hp
  have hbeam : ∀ first last cat, (p.chart.get first last cat).length <
      (bottomUp.task Weights.new sampleText).beam.size := by
    intro first last cat
    obtain ⟨-, hoptions, -⟩ := ofRules_eq_ok hbottomUp
    refine Nat.lt_of_le_of_lt (hlength first last cat) ?_
    show p.arena.size < sampleText.beamSize.getD bottomUp.options.beamSize
    rw [hsize, hoptions]
    decide
  have hscores : ∀ first last cat, ∀ i ∈ p.chart.get first last cat,
      Score.eq (p.arena.score i) Score.negInf = false := fun first last cat i hi =>
    hcounts rfl i (hsize ▸ hbounded first last cat i hi)
  exact ⟨bottomUp, bestFirst, p, hbottomUp, hbestFirst, hp, hroots, hbeam, hscores,
    infer_bestFirst hbottomUp hbestFirst (by decide) (by decide) (by decide) hliteral rfl rfl hnoise rfl hp hbeam
      (Or.inl rfl) hscores⟩

/-- However many steps it may take, a search comes to one end at most. -/
theorem Parser.eq_of_infer_withSteps {parser : Parser α} {search : BestFirst.Options α} {weights : Weights α}
    {ex : Example} {n m : Nat} {p q : Progress α} (hkind : parser.options.kind = .bestFirst search)
    (hp : (parser.withSteps n).infer weights ex = .ok p) (hq : (parser.withSteps m).infer weights ex = .ok q) :
    p = q := by
  have hrun : ∀ steps, (parser.withSteps steps).infer weights ex =
      BestFirst.run search parser.siblings (parser.task weights ex) steps := fun steps => by
    unfold infer withSteps
    dsimp only
    rw [hkind]
    rfl
  rw [hrun] at hp hq
  obtain ⟨s, hs, hp⟩ := bind_eq_ok.mp hp
  obtain ⟨s', hs', hq⟩ := bind_eq_ok.mp hq
  obtain rfl : s = s' := Except.ok.inj (hs.symm.trans hs')
  obtain ⟨t, ht, hp⟩ := bind_eq_ok.mp hp
  obtain ⟨t', ht', hq⟩ := bind_eq_ok.mp hq
  obtain rfl : t = t' := Except.ok.inj ((BestFirst.search_of_le (Nat.le_max_left n m) ht).symm.trans
    (BestFirst.search_of_le (Nat.le_max_right n m) ht'))
  exact (Except.ok.inj hp).symm.trans (Except.ok.inj hq)

/-- **The two kinds of search come to different numbers of roots**, though no cell fills the beam. -/
def Parser.Differ (rules : List Rule) (options : ParserOptions α) (weights : Weights α) (ex : Example)
    (roots roots' : Nat) : Prop :=
  ∃ (bottomUp bestFirst : Parser α) (p q : Progress α),
    Parser.ofRules rules { options with kind := .bottomUp } {} .matching = .ok bottomUp ∧
      Parser.ofRules rules { options with kind := .bestFirst {} } {} .matching = .ok bestFirst ∧
      bottomUp.infer weights ex = .ok p ∧
      (∀ first last cat, (p.chart.get first last cat).length < (bottomUp.task weights ex).beam.size) ∧
      p.roots.length = roots ∧ bestFirst.infer weights ex = .ok q ∧ q.roots.length = roots' ∧
      ∀ steps r, (bestFirst.withSteps steps).infer weights ex = .ok r → r = q

theorem Parser.differ_of_census {rules : List Rule} {options : ParserOptions α} {weights : Weights α} {ex : Example}
    {size roots roots' : Nat} {counts : Bool}
    (hbottomUp : census rules { options with kind := .bottomUp } weights ex = some (size, roots, counts))
    (hbestFirst : (census rules { options with kind := .bestFirst {} } weights ex).map (·.2.1) = some roots')
    (hcoarse : options.coarse = false) (hlimit : options.limit = none)
    (hnoise : Score.lt Score.zero options.noise = false) (herr : options.pruneErrors = false)
    (hcat : ∀ r ∈ rules, isCat r.lhs = true)
    (hliteral : ∀ i < ex.length, ∀ r ∈ rules, ex.token i ∈ r.rhs → isCat (ex.token i) = false)
    (hsize : size < ex.beamSize.getD options.beamSize) : Differ rules options weights ex roots roots' := by
  obtain ⟨bottomUp, p, hparser, hp, hps, hroots, -⟩ := exists_of_census hbottomUp
  obtain ⟨⟨size', _, counts'⟩, hcensus, rfl⟩ := Option.map_eq_some_iff.mp hbestFirst
  obtain ⟨bestFirst, q, hparser', hq, -, hroots', -⟩ := exists_of_census hcensus
  obtain ⟨-, hlength⟩ := length_get_infer hparser rfl hcoarse hlimit hnoise herr hcat hliteral hp
  obtain ⟨-, hoptions, -⟩ := ofRules_eq_ok hparser
  obtain ⟨-, hoptions', -⟩ := ofRules_eq_ok hparser'
  refine ⟨bottomUp, bestFirst, p, q, hparser, hparser', hp, fun first last cat => ?_, hroots, hq, hroots',
    fun steps r hr => ?_⟩
  · refine Nat.lt_of_le_of_lt (hlength first last cat) ?_
    show p.arena.size < ex.beamSize.getD bottomUp.options.beamSize
    rw [hps, hoptions]
    exact hsize
  · exact eq_of_infer_withSteps (by rw [hoptions']) hr
      (show (bestFirst.withSteps bestFirst.options.steps).infer weights ex = .ok q from hq)

/-- A grammar of one letter. -/
def letterRules : List Rule := [
  { lhs := "$ROOT", rhs := ["a"], sem := (ConstantFn.new (.ofString "a") none).toFn }]

/-- A text that is the letter. -/
def letterText : Example where
  utterance := "a"
  info := { tokens := ["a"], lemmas := ["a"] }

/-- The same weight for every feature. -/
def Weights.uniform (weight : Float) : Weights Float := .new { Weights.standardOptions with defaultWeight := weight }

/-- **Finite weights are not enough.** Two features of the same large weight add up to infinity. If it is minus
infinity, only a bottom-up parse keeps the derivation; if it is infinity, its difference to itself is not a number,
and a bottom-up parse that drops what is too far behind the best one drops it. -/
theorem Parser.infer_bestFirst_not :
    (Score.isFinite (-1e308 : Float) = true ∧
      Differ letterRules .standard (.uniform (-1e308)) letterText 1 0) ∧
    (Score.isFinite (1e308 : Float) = true ∧
      Differ letterRules { ParserOptions.standard with policy := .probDiff 2.0 } (.uniform 1e308) letterText 0 1) := by
  have hcat : ∀ r ∈ letterRules, isCat r.lhs = true := by decide
  have hliteral : ∀ i < letterText.length, ∀ r ∈ letterRules, letterText.token i ∈ r.rhs →
      isCat (letterText.token i) = false := by decide
  have hnoise : Score.lt Score.zero (Score.zero : Float) = false := by decide +kernel
  refine ⟨⟨by decide +kernel, ?_⟩, by decide +kernel, ?_⟩
  · have hbottomUp : census letterRules { ParserOptions.standard with kind := .bottomUp } (.uniform (-1e308))
        letterText = some (5, 1, false) := by decide +kernel
    have hbestFirst : (census letterRules { ParserOptions.standard with kind := .bestFirst {} } (.uniform (-1e308))
        letterText).map (·.2.1) = some 0 := by decide +kernel
    exact differ_of_census hbottomUp hbestFirst rfl rfl hnoise rfl hcat hliteral (by decide)
  · have hbottomUp : census letterRules { ParserOptions.standard with policy := .probDiff 2.0, kind := .bottomUp }
        (.uniform 1e308) letterText = some (5, 0, true) := by decide +kernel
    have hbestFirst : (census letterRules
        { ParserOptions.standard with policy := .probDiff 2.0, kind := .bestFirst {} } (.uniform 1e308)
        letterText).map (·.2.1) = some 1 := by decide +kernel
    exact differ_of_census hbottomUp hbestFirst rfl rfl hnoise rfl hcat hliteral (by decide)

end Parlance
