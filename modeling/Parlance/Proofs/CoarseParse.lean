import Parlance.Proofs.Completeness
import Parlance.Proofs.CoarseRun

/-!
# `Proofs.CoarseParse` — a coarse parser changes no prediction

The tokens and phrases are the same in a parse that goes by a coarse chart and in one that does not, and each span
keeps the two in agreement. At the end, the root category is either kept, so that the predictions are the same
trees in the same order, or it was not found by the coarse parse, so that neither parse has a prediction.

## Contents
- **Seeds.** `seed_congr`, `agree_seed` and `tracked_seed`.
- **Texts.** `InStep`, kept from span to span, and `run_agree`.
- **Predictions.** `map_unfold_roots`, and `unfold_conclude`: the trees that a result shows.
- **Parsers.** `Parser.parse_coarse`.
-/

namespace Parlance

open Progress

variable {α : Type} [Score α]

/-! ## Seeds -/

section Seeds

variable {task : Task α} {found kept : CoarseChart} {rules : List Rule}

theorem children_rated (p : Progress α) (task : Task α) (d : Derivation α) :
    (p.rated task d).children = d.children := by
  obtain ⟨features, score, h⟩ := rated_eq task p d
  rw [h]

/-- The tokens and phrases of a text say the same whatever numbers they get, and whatever the limits are. -/
theorem map_unfold_ratedTerminals {task task' : Task α} (hex : task'.ex = task.ex)
    (hextractor : task'.extractor = task.extractor) (hweights : task'.weights = task.weights) (arena : Arena α) :
    (ratedTerminals task').map (Derivation.unfold arena) = (ratedTerminals task).map (Derivation.unfold arena) := by
  unfold ratedTerminals terminalDerivations
  rw [hex]
  simp only [List.map_map]
  refine List.map_congr_left fun t _ => ?_
  show Derivation.unfold arena (rated _ _ _) = Derivation.unfold arena (rated _ _ _)
  unfold Derivation.unfold
  rw [children_rated, children_rated, label_rated, label_rated, hweights]
  unfold extract
  rw [hextractor, hex]
  rfl

omit [Score α] in
/-- Before the tokens and phrases are put in, no cell has a category. -/
theorem cats_start (task : Task α) (f l : Nat) : (startWithTerminals task).chart.cats f l = [] := by
  show (Chart.new task.length task.beam).cats f l = []
  rw [Chart.cats_eq, Chart.cellAt_new]
  rfl

/-- The trees of the tokens and phrases. -/
theorem treesAt_seed (task : Task α) (f l : Nat) (c : String) :
    (BottomUp.seed task).treesAt f l c =
      ((ratedTerminals task).map (Derivation.unfold (startWithTerminals task).arena)).filter
        fun t => t.isAt f l c := by
  have hnone : (startWithTerminals task).treesAt f l c = [] :=
    treesAt_of_not_mem fun hc => by
      rw [cats_start] at hc
      cases hc
  rw [(grown_seed task).1.treesAt (sound_start task).bounded (fun d hd c hc => ?_), hnone, List.nil_append]
  rw [(mem_ratedTerminals hd).2.2.2] at hc
  cases hc

/-- Whatever the limits are, parses begin with the same cells. -/
theorem seed_congr {task task' : Task α} (hex : task'.ex = task.ex) (hextractor : task'.extractor = task.extractor)
    (hweights : task'.weights = task.weights) :
    (∀ f l, (BottomUp.seed task').chart.cats f l = (BottomUp.seed task).chart.cats f l) ∧
      ∀ f l c, (BottomUp.seed task').treesAt f l c = (BottomUp.seed task).treesAt f l c := by
  have hsame := map_unfold_ratedTerminals hex hextractor hweights (startWithTerminals task).arena
  refine ⟨fun f l => ?_, fun f l c => ?_⟩
  · rw [(grown_seed task).1.cats, (grown_seed task').1.cats, cats_start, cats_start,
      catsWith_eq_treeCats f l _ _ (startWithTerminals task).arena,
      catsWith_eq_treeCats f l _ _ (startWithTerminals task).arena, hsame]
  · rw [treesAt_seed, treesAt_seed]
    exact congrArg (List.filter _) hsame

/-- **The parses begin in agreement.** -/
theorem agree_seed (task : Task α) (kept : CoarseChart) (supply : Nat → Nat) :
    Agree kept (BottomUp.seed task) (BottomUp.seed (task.prunedBy kept supply)) := by
  obtain ⟨hcats, htrees⟩ := seed_congr (show (task.prunedBy kept supply).ex = task.ex from rfl) rfl rfl
  exact ⟨fun f l => by rw [hcats], fun f l c _ => (htrees f l c).symm⟩

/-- The tokens and phrases are found by the coarse parse. -/
theorem tracked_seed (hclosed : CoarseChart.Closed rules task.ex found kept) :
    (BottomUp.seed task).Tracked found task := by
  refine ⟨sound_seed task, numbered_seed task, fun f l c hc => ?_⟩
  obtain ⟨hg, -⟩ := grown_seed task
  rw [hg.cats, mem_catsWith] at hc
  rcases hc with hc | ⟨d, hd, hat⟩
  · rw [cats_start] at hc
    cases hc
  · obtain ⟨e, he, rfl⟩ := List.mem_map.mp hd
    obtain ⟨t, ht, n, rfl⟩ := exists_terminal he
    obtain ⟨features, score, hr⟩ := rated_eq task (start task)
      (.terminal t.cat t.first t.last t.text t.canonical n)
    rw [hr] at hat
    obtain ⟨rfl, rfl, rfl⟩ := Derivation.isAt_iff.mp hat
    exact hclosed.terminal t ht

/-- The tokens and phrases lie in their cells in the order in which they were put in. -/
theorem ascending_seed (task : Task α) (f l : Nat) (c : String) : (BottomUp.seed task).Ascending f l c := by
  have hstart : (startWithTerminals task).Ascending f l c := by
    unfold Ascending
    show ((Chart.new task.length task.beam).get f l c).Pairwise (· < ·)
    rw [Chart.get_eq, Chart.cellAt_new]
    exact List.Pairwise.nil
  exact hstart.grown (sound_start task).bounded (grown_seed task).1

end Seeds

/-! ## Texts -/

namespace BottomUp

variable {task : Task α} {supply : Nat → Nat} {found kept : CoarseChart} {rules unaries : List Rule}
  {p p' q : Progress α}

/-- **The parses are in step** once some spans are built: they agree, and the cells of the other spans were not
sorted yet. -/
structure InStep (found kept : CoarseChart) (task : Task α) (supply : Nat → Nat) (pre : List (Nat × Nat))
    (p p' : Progress α) : Prop where
  agree : Agree kept p p'
  tracked : p.Tracked found task
  tracked' : p'.Tracked found (task.prunedBy kept supply)
  ascending : ∀ f l, (f, l) ∉ pre → ∀ c, p.Ascending f l c
  ascending' : ∀ f l, (f, l) ∉ pre → ∀ c, p'.Ascending f l c

omit [Score α] in
/-- Work on a span leaves the other cells in their order. -/
theorem ascending_of_later {first last : Nat} {pre : List (Nat × Nat)} (h : Later first last p q)
    (hp : ∀ f l, (f, l) ∉ pre → ∀ c, p.Ascending f l c) {f l : Nat} (hn : (f, l) ∉ pre ++ [(first, last)])
    (c : String) : q.Ascending f l c := by
  rw [List.mem_append, List.mem_singleton, not_or] at hn
  unfold Ascending
  rw [h.get f l c fun he => hn.2 (Prod.ext he.1 he.2)]
  exact hp f l hn.1 c

/-- **One span** keeps the parses in step. -/
theorem InStep.buildSpan (hc : task.coarse = none) (hlim : task.limit = none) (hq : task.beam.Quiet)
    (hs : StrictMono task.supply) (hs' : StrictMono supply) (hready : Ready rules unaries)
    (hlen : ∀ r ∈ rules, r.rhs.length ≤ 2) (hclosed : CoarseChart.Closed rules task.ex found kept)
    {pre post : List (Nat × Nat)} {span : Nat × Nat} (hspans : spansByLength task.length = pre ++ span :: post)
    (h : InStep found kept task supply pre p p')
    (hstep : BottomUp.buildSpan task (trieOf rules) unaries p span = .ok q) :
    ∃ q', BottomUp.buildSpan (task.prunedBy kept supply) (trieOf rules) unaries p' span = .ok q' ∧
      InStep found kept task supply (pre ++ [span]) q q' := by
  obtain ⟨first, last⟩ := span
  have hmem : (first, last) ∈ spansByLength task.length := hspans ▸ by simp
  obtain ⟨hf, hl⟩ := mem_spansByLength.mp hmem
  -- the cells of the span were not sorted yet
  have hnew : (first, last) ∉ pre := fun hm =>
    not_within_of_mem hspans hm ⟨Nat.le_refl first, Nat.le_refl last⟩
  obtain ⟨q', hstep', hagree, htracked, htracked'⟩ := buildSpan_agree hc hlim hq hs hs' hready hlen hclosed hf hl
    h.tracked h.tracked' h.agree (h.ascending first last hnew) (h.ascending' first last hnew) hstep
  have hlim' : (task.prunedBy kept supply).limit = none := hlim
  have hq' : (task.prunedBy kept supply).beam.Quiet := hq
  obtain ⟨-, hlater⟩ := step_buildSpan hlim hq hready h.tracked.sound hf hl hstep
  obtain ⟨-, hlater'⟩ := step_buildSpan hlim' hq' hready h.tracked'.sound hf hl hstep'
  exact ⟨q', hstep', hagree, htracked, htracked', fun f l hn c => ascending_of_later hlater h.ascending hn c,
    fun f l hn c => ascending_of_later hlater' h.ascending' hn c⟩

/-- **A whole text**: a parse that goes by a coarse chart succeeds where one without it does, and they agree. -/
theorem run_agree (hc : task.coarse = none) (hlim : task.limit = none) (hq : task.beam.Quiet)
    (hs : StrictMono task.supply) (hs' : StrictMono supply) (hready : Ready rules unaries)
    (hlen : ∀ r ∈ rules, r.rhs.length ≤ 2) (hclosed : CoarseChart.Closed rules task.ex found kept)
    (h : run task (trieOf rules) unaries = .ok p) :
    ∃ p', run (task.prunedBy kept supply) (trieOf rules) unaries = .ok p' ∧
      InStep found kept task supply (spansByLength task.length) p p' := by
  have hclosed' : CoarseChart.Closed rules (task.prunedBy kept supply).ex found kept := hclosed
  have hseed : InStep found kept task supply [] (seed task) (seed (task.prunedBy kept supply)) :=
    ⟨agree_seed task kept supply, tracked_seed hclosed, tracked_seed hclosed',
      fun f l _ => ascending_seed task f l, fun f l _ => ascending_seed _ f l⟩
  exact foldlM_lockstep (R := InStep found kept task supply)
    (g := BottomUp.buildSpan (task.prunedBy kept supply) (trieOf rules) unaries) hseed
    (fun _ _ _ _ _ _ hspans hin hstep => hin.buildSpan hc hlim hq hs hs' hready hlen hclosed hspans hstep) h

end BottomUp

/-! ## Predictions -/

/-- **The predictions are the same trees in the same order.** -/
theorem BottomUp.InStep.map_unfold_roots {task : Task α} {supply : Nat → Nat} {found kept : CoarseChart}
    {rules : List Rule} {pre : List (Nat × Nat)} {p p' : Progress α}
    (h : BottomUp.InStep found kept task supply pre p p')
    (hclosed : CoarseChart.Closed rules task.ex found kept) :
    p'.roots.map p'.arena.unfold = p.roots.map p.arena.unfold := by
  have hlength : p.chart.length = task.ex.length := h.tracked.sound.length
  have hlength' : p'.chart.length = task.ex.length := h.tracked'.sound.length
  unfold roots
  rw [hlength, hlength']
  show p'.treesAt 0 task.ex.length rootCat = p.treesAt 0 task.ex.length rootCat
  cases hfound : found.allows rootCat 0 task.ex.length with
  | true => exact (h.agree.trees _ _ _ (hclosed.root hfound)).symm
  | false => rw [BottomUp.treesAt_eq_nil h.tracked hfound, BottomUp.treesAt_eq_nil h.tracked' hfound]

/-- Changes that leave labels and children alone leave the trees alone. -/
theorem Arena.unfold_foldl_modify {β : Type} (l : List β) (index : β → Nat)
    (f : β → Derivation α → Derivation α) (hf : ∀ x d, (f x d).label = d.label)
    (hc : ∀ x d, (f x d).children = d.children) (arena : Arena α) :
    (l.foldl (fun arena x => arena.modify (index x) (f x)) arena).unfold = arena.unfold := by
  induction l generalizing arena with
  | nil => rfl
  | cons x l ih =>
    have hget : ∀ {γ : Type} (g : Derivation α → γ) (_ : ∀ d, g (f x d) = g d) (i : Nat),
        g ((arena.modify (index x) (f x)).get i) = g (arena.get i) := by
      intro γ g hg i
      unfold get get? modify
      rw [Array.getElem?_modify]
      split
      · cases arena.items[i]? with
        | none => rfl
        | some d => exact hg d
      · rfl
    rw [List.foldl_cons, ih]
    exact unfold_congr (hget Derivation.label (hf x)) (hget Derivation.children (hc x))

theorem unfold_executePredictions (executor : Executor) (evaluator : ValueEvaluator α) (target : Option Value)
    (arena : Arena α) (predictions : List Nat) :
    (executePredictions executor evaluator target arena predictions).unfold = arena.unfold := by
  have hexecute : ∀ d : Derivation α, (executePrediction executor evaluator target d).label = d.label ∧
      (executePrediction executor evaluator target d).children = d.children := by
    intro d
    have hrun : (d.execute executor).label = d.label ∧ (d.execute executor).children = d.children := by
      unfold Derivation.execute
      split
      · exact ⟨rfl, rfl⟩
      · exact ⟨rfl, rfl⟩
    unfold executePrediction
    dsimp only
    split
    · unfold Derivation.setCompatibility
      split
      · exact hrun
      · exact hrun
    · exact hrun
  exact Arena.unfold_foldl_modify predictions id (fun _ => executePrediction executor evaluator target)
    (fun _ d => (hexecute d).1) (fun _ d => (hexecute d).2) arena

theorem unfold_setProbabilities (arena : Arena α) (predictions : List Nat) :
    (setProbabilities arena predictions).unfold = arena.unfold :=
  Arena.unfold_foldl_modify _ Prod.fst (fun x d => { d with prob := x.2 }) (fun _ _ => rfl) (fun _ _ => rfl) arena

/-- What is found out about predictions in the end changes no tree. -/
theorem Parser.unfold_arena_conclude (parser : Parser α) (ex : Example) (learning : Bool) (p : Progress α) :
    (parser.conclude ex learning p).arena.unfold = p.arena.unfold := by
  show (setProbabilities (executePredictions _ _ _ _ _) _).unfold = _
  rw [unfold_setProbabilities, unfold_executePredictions]

/-- **The trees that a result shows** are those of the predictions of the search. -/
theorem Parser.unfold_conclude (parser : Parser α) (ex : Example) (learning : Bool) (p : Progress α) :
    (parser.conclude ex learning p).predictions.map (parser.conclude ex learning p).arena.unfold =
      p.roots.map p.arena.unfold := by
  rw [unfold_arena_conclude]
  rfl

/-! ## Parsers -/

/-- What makes up a parser that searches bottom up. -/
theorem Parser.ofRules_bottomUp_eq_ok_iff {rules : List Rule} {options : ParserOptions α} {ctx : SemContext}
    {executor : Executor} {extractor : FeatureExtractor α} {evaluator : ValueEvaluator α} {parser : Parser α}
    (hkind : options.kind = .bottomUp) :
    Parser.ofRules rules options ctx executor extractor evaluator = .ok parser ↔
      ∃ unaries coarse, UnaryOrder.sort rules = .ok unaries ∧
        prepare options.coarse (CoarseParser.ofRules rules) = .ok coarse ∧
        { options, ctx, extractor, executor, evaluator, unaries, coarse, trie := trieOf rules, siblings := .empty } =
          parser := by
  have hsiblings : prepare (needsSiblings options.kind) (SiblingIndex.ofRules rules) = .ok none := by
    rw [hkind]
    rfl
  unfold Parser.ofRules
  simp only [bind_eq_ok, hsiblings]
  constructor
  · rintro ⟨unaries, hsort, coarse, hcoarse, siblings, hnone, hparser⟩
    obtain rfl : none = siblings := Except.ok.inj hnone
    exact ⟨unaries, coarse, hsort, hcoarse, Except.ok.inj hparser⟩
  · rintro ⟨unaries, coarse, hsort, hcoarse, rfl⟩
    exact ⟨unaries, hsort, coarse, hcoarse, none, rfl, rfl⟩

/-- **Coarse parsing changes no prediction.** For a grammar of rules with one or two symbols whose left-hand sides
are categories, let a parser search bottom up without a limit and without noise. A parser that goes by a coarse
parse can then be made as well; it succeeds wherever the parser without it does, and its predictions are the same
trees in the same order, whatever the beam and whatever fell off it. The two may number their derivations as
they like. -/
theorem Parser.parse_coarse {rules : List Rule} {options : ParserOptions α} {ctx : SemContext}
    {executor : Executor} {extractor : FeatureExtractor α} {evaluator : ValueEvaluator α} {coarse : CoarseParser}
    {plain : Parser α} {supply : Nat → Nat} (hcoarse : CoarseParser.ofRules rules = .ok coarse)
    (hplain : Parser.ofRules rules { options with coarse := false } ctx executor extractor evaluator = .ok plain)
    (hkind : options.kind = .bottomUp) (hlimit : options.limit = none)
    (hnoise : Score.lt Score.zero options.noise = false) (hcat : ∀ r ∈ rules, isCat r.lhs = true)
    (hs : StrictMono options.supply) (hs' : StrictMono supply) :
    ∃ pruned,
      Parser.ofRules rules { options with coarse := true, supply } ctx executor extractor evaluator = .ok pruned ∧
      ∀ (weights : Weights α) (ex : Example) (learning : Bool) (r : ParseResult α),
        plain.parse weights ex learning = .ok r →
          ∃ r', pruned.parse weights ex learning = .ok r' ∧
            r'.predictions.map r'.arena.unfold = r.predictions.map r.arena.unfold := by
  obtain ⟨unaries, none', hsort, hnone, rfl⟩ := (ofRules_bottomUp_eq_ok_iff (by exact hkind)).mp hplain
  obtain rfl : none = none' := Except.ok.inj hnone
  have hprepare : prepare true (CoarseParser.ofRules rules) = .ok (some coarse) := by
    rw [hcoarse]
    rfl
  refine ⟨_, (ofRules_bottomUp_eq_ok_iff (by exact hkind)).mpr ⟨unaries, some coarse, hsort, hprepare, rfl⟩, ?_⟩
  intro weights ex learning r hr
  obtain ⟨p, hp, hr⟩ := bind_eq_ok.mp hr
  obtain rfl := Except.ok.inj hr
  -- the searches of the two parsers
  unfold infer at hp
  dsimp only at hp
  rw [hkind] at hp
  have hclosed := CoarseChart.closed_parse hcoarse ex
  obtain ⟨p', hp', hin⟩ := BottomUp.run_agree rfl (by exact hlimit) (by exact hnoise) hs hs' ⟨hcat, hsort⟩
    (CoarseChart.isParserOf_ofRules hcoarse).length hclosed hp
  refine ⟨_, bind_eq_ok.mpr ⟨p', ?_, rfl⟩, ?_⟩
  · unfold infer
    dsimp only
    rw [hkind]
    exact hp'
  · rw [unfold_conclude, unfold_conclude]
    exact hin.map_unfold_roots hclosed

/-- The one sum of two terms is found by both parsers. -/
theorem Parser.parse_coarse_sample : ∃ (plain pruned : Parser Float) (r r' : ParseResult Float),
    Parser.ofRules sampleRules .standard {} .matching = .ok plain ∧
      Parser.ofRules sampleRules { ParserOptions.standard with coarse := true, supply := fun i => 2 * i } {}
        .matching = .ok pruned ∧
      plain.parse Weights.new sampleText false = .ok r ∧ r.predictions.length = 1 ∧
      pruned.parse Weights.new sampleText false = .ok r' ∧
      r'.predictions.map r'.arena.unfold = r.predictions.map r.arena.unfold := by
  obtain ⟨plain, p, hplain, hp, -, hroots⟩ :=
    exists_of_sampleOutcome (show sampleOutcome .standard = some (1, 1) by decide +kernel)
  obtain ⟨coarse, hcoarse⟩ : ∃ coarse, CoarseParser.ofRules sampleRules = .ok coarse := by
    have hsome : (CoarseParser.ofRules sampleRules).toOption.isSome = true := by decide +kernel
    cases h : CoarseParser.ofRules sampleRules with
    | error e =>
      rw [h] at hsome
      cases hsome
    | ok coarse => exact ⟨coarse, rfl⟩
  have hplain' : Parser.ofRules sampleRules { ParserOptions.standard with coarse := false } {} .matching =
      .ok plain := hplain
  have hdouble : StrictMono fun i : Nat => 2 * i := fun i j h => by
    show 2 * i < 2 * j
    omega
  obtain ⟨pruned, hpruned, hparse⟩ := Parser.parse_coarse hcoarse hplain' rfl rfl (by decide +kernel) (by decide)
    strictMono_id hdouble
  have hr : plain.parse Weights.new sampleText false = .ok (plain.conclude sampleText false p) :=
    bind_eq_ok.mpr ⟨p, hp, rfl⟩
  obtain ⟨r', hr', htrees⟩ := hparse Weights.new sampleText false _ hr
  exact ⟨plain, pruned, _, r', hplain, hpruned, hr, hroots, hr', htrees⟩

end Parlance
