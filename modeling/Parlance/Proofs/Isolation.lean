import Parlance.Parse.Parser
import Parlance.Proofs.Completeness
import Parlance.Proofs.SearchNumbering

/-!
# `Proofs.Isolation` — parses do not influence each other

All parses of a process take the numbers of their derivations from one counter. A parse that runs beside others sees
an increasing sequence of numbers that starts anywhere and has gaps wherever the others took a number. That is all it
sees of them, and it makes no difference: whatever the sequence, the parse fails in the same way or has the same
result, up to the numbers themselves.

## Contents
- **What is concluded** from a search: execution, what to learn, probabilities, figures.
- **Parses.** `Parser.withSupply`, and `Parser.parse_withSupply`.
-/

namespace Parlance

variable {α : Type} [Score α] {f : Nat → Nat}

/-! ## What is concluded -/

namespace Arena

theorem isCorrect_renumber (arena : Arena α) (i : Nat) : (arena.renumber f).isCorrect i = arena.isCorrect i :=
  read_renumber (fun d => Score.eq d.compatibility Score.one) (fun _ => rfl) arena i

theorem reward_renumber (arena : Arena α) (i : Nat) : (arena.renumber f).reward i = arena.reward i := by
  unfold reward
  rw [isCorrect_renumber]

/-- **The features of a tree** do not depend on numbers. -/
theorem addTreeFeatures_renumber (factor : α) (i : Nat) (arena : Arena α) (table : Table α) :
    (arena.renumber f).addTreeFeatures factor i table = arena.addTreeFeatures factor i table := by
  induction i using Nat.strongRecOn generalizing table with
  | ind i ih =>
    -- a walk goes on only to children that stand before the derivation
    have hall : ∀ (children : List Nat) (table : Table α),
        addTreeFeaturesOfAll (arena.renumber f) factor i children table =
          addTreeFeaturesOfAll arena factor i children table := by
      intro children
      induction children with
      | nil =>
        intro table
        rw [addTreeFeaturesOfAll, addTreeFeaturesOfAll]
      | cons c rest ihr =>
        intro table
        rw [addTreeFeaturesOfAll, addTreeFeaturesOfAll]
        split
        case isTrue hc => rw [ih c hc, ihr]
        case isFalse => rw [ihr]
    have hfeatures := read_renumber (f := f) Derivation.features (fun _ => rfl) arena i
    have hchildren := read_renumber (f := f) Derivation.children (fun _ => rfl) arena i
    rw [addTreeFeatures, addTreeFeatures, hfeatures, hchildren, hall]

/-- What is learned from predictions does not depend on their numbers. -/
theorem expectedCounts?_renumber (arena : Arena α) (predictions : List Nat) (mode : CountMode) (margin : α) :
    (arena.renumber f).expectedCounts? predictions mode margin =
      arena.expectedCounts? predictions mode margin := by
  have hbest : ∀ correct, (arena.renumber f).bestOf? correct predictions = arena.bestOf? correct predictions := by
    intro correct
    unfold bestOf?
    simp only [isCorrect_renumber, score_renumber]
  have hweights : (arena.renumber f).logWeights? predictions mode margin =
      arena.logWeights? predictions mode margin := by
    unfold logWeights?
    simp only [reward_renumber, score_renumber, map_score_renumber, hbest]
  have hfeatures : ∀ terms, (arena.renumber f).weightedFeatures terms = arena.weightedFeatures terms := by
    intro terms
    unfold weightedFeatures
    simp only [addTreeFeatures_renumber]
  unfold expectedCounts?
  simp only [hweights, hfeatures]

end Arena

omit [Score α] in
theorem Derivation.execute_renumber (d : Derivation α) (executor : Executor) :
    (d.renumber f).execute executor = (d.execute executor).renumber f := by
  have hvalue : (d.renumber f).value = d.value := rfl
  unfold execute
  rw [hvalue]
  cases d.value <;> rfl

theorem Derivation.setCompatibility_renumber (d : Derivation α) (compatibility : α) :
    (d.renumber f).setCompatibility compatibility = (d.setCompatibility compatibility).renumber f := by
  have hcompatibility : (d.renumber f).compatibility = d.compatibility := rfl
  unfold setCompatibility
  rw [hcompatibility]
  cases Score.isNaN d.compatibility <;> rfl

/-- Predictions are executed and compared with the target one by one. -/
theorem executePredictions_renumber (executor : Executor) (evaluator : ValueEvaluator α) (target : Option Value)
    (arena : Arena α) (predictions : List Nat) :
    executePredictions executor evaluator target (arena.renumber f) predictions =
      (executePredictions executor evaluator target arena predictions).renumber f := by
  apply List.foldl_hom (Arena.renumber f)
  intro arena i
  apply Arena.modify_renumber
  intro d
  unfold executePrediction
  rw [Derivation.execute_renumber]
  cases target with
  | none => rfl
  | some target => exact Derivation.setCompatibility_renumber _ _

/-- Probabilities are made of scores. -/
theorem setProbabilities_renumber (arena : Arena α) (predictions : List Nat) :
    setProbabilities (arena.renumber f) predictions = (setProbabilities arena predictions).renumber f := by
  unfold setProbabilities
  rw [Arena.map_score_renumber]
  apply List.foldl_hom (Arena.renumber f)
  rintro arena ⟨i, prob⟩
  apply Arena.modify_renumber
  intro d
  rfl

theorem recordPredictions_renumber (arena : Arena α) (predictions : List Nat) (hasTarget : Bool) :
    recordPredictions (arena.renumber f) predictions hasTarget = recordPredictions arena predictions hasTarget := by
  have hstandings : (predictions.map (arena.renumber f).get).map (Standing.ofDerivation hasTarget) =
      (predictions.map arena.get).map (Standing.ofDerivation hasTarget) := by
    rw [List.map_map, List.map_map]
    apply List.map_congr_left
    intro i _
    exact Arena.read_renumber (Standing.ofDerivation hasTarget) (fun _ => rfl) arena i
  have hbeam := Arena.read_renumber (f := f) Derivation.maxBeam (fun _ => rfl) arena
  have hunsorted := Arena.read_renumber (f := f) Derivation.maxUnsorted (fun _ => rfl) arena
  have hstats := Arena.read_renumber (f := f) Derivation.stats (fun _ => rfl) arena
  unfold recordPredictions
  dsimp only
  rw [hstandings]
  generalize (predictions.map arena.get).map (Standing.ofDerivation hasTarget) = standings
  -- the first right prediction is found by its standing, and read in either arena
  simp only [List.zip_map_left, List.find?_map, List.foldl_map, hstats]
  congr 1
  have htest : ((fun x : Derivation α × Standing α => x.2.isRight) ∘ Prod.map (arena.renumber f).get id) =
      ((fun x : Derivation α × Standing α => x.2.isRight) ∘ Prod.map arena.get id) := rfl
  rw [htest]
  cases (predictions.zip standings).find? ((fun x : Derivation α × Standing α => x.2.isRight) ∘
    Prod.map arena.get id) with
  | none => rfl
  | some found =>
    show ((Standing.record standings .empty).record _ (ofPlace ((arena.renumber f).get found.1).maxBeam)).record _
      (ofPlace ((arena.renumber f).get found.1).maxUnsorted) = _
    rw [hbeam, hunsorted]
    rfl

/-! ## Parses -/

namespace ParseResult

/-- The result with other numbers on its derivations. -/
def renumber (f : Nat → Nat) (r : ParseResult α) : ParseResult α := { r with arena := r.arena.renumber f }

/-- The result without the numbers of its derivations. All else is there: the derivations with their scores, values
and places, the cells in their order, the predictions and the figures. -/
def unnumbered (r : ParseResult α) : ParseResult α := r.renumber fun _ => 0

omit [Score α] in
/-- Without numbers there is no difference. -/
theorem unnumbered_renumber (r : ParseResult α) : (r.renumber f).unnumbered = r.unnumbered := by
  have harena : (r.arena.renumber f).renumber (fun _ => 0) = r.arena.renumber fun _ => 0 := by
    unfold Arena.renumber
    rw [Array.map_map]
    rfl
  show ({ r with arena := (r.arena.renumber f).renumber fun _ => 0 } : ParseResult α) = _
  rw [harena]
  rfl

end ParseResult

namespace Parser

/-- The parser that takes its numbers from another supply. -/
def withSupply (parser : Parser α) (supply : Nat → Nat) : Parser α :=
  { parser with options := { parser.options with supply } }

/-- **The end of a parse**, from the roots to what is learned. -/
theorem conclude_renumber (parser : Parser α) (ex : Example) (learning : Bool) (p : Progress α) :
    parser.conclude ex learning (p.renumber f) = (parser.conclude ex learning p).renumber f := by
  unfold conclude
  dsimp only [Progress.renumber, Progress.roots]
  simp only [executePredictions_renumber, Arena.expectedCounts?_renumber, setProbabilities_renumber,
    recordPredictions_renumber]
  rfl

/-- **A parse with numbers in the same order** as those from zero on. -/
theorem parse_renumber (hf : StrictMono f) (parser : Parser α) (weights : Weights α) (ex : Example) (learning : Bool) :
    (parser.withSupply f).parse weights ex learning =
      ((parser.withSupply id).parse weights ex learning).map (ParseResult.renumber f) := by
  have hinfer : (parser.withSupply f).infer weights ex =
      ((parser.withSupply id).infer weights ex).map (Progress.renumber f) := by
    have htask : (parser.withSupply f).task weights ex = ((parser.withSupply id).task weights ex).renumber f := rfl
    unfold infer
    dsimp only
    rw [htask]
    generalize (parser.withSupply id).task weights ex = task
    dsimp only [withSupply]
    cases parser.options.kind with
    | bottomUp => exact (BottomUp.mirrors_run hf task parser.trie parser.unaries).eq
    | bestFirst options =>
      exact (BestFirst.mirrors_run hf options parser.siblings task parser.options.steps).eq
  have hconclude : ∀ p : Progress α, (parser.withSupply f).conclude ex learning (p.renumber f) =
      ((parser.withSupply id).conclude ex learning p).renumber f := by
    intro p
    exact conclude_renumber (parser.withSupply id) ex learning p
  unfold parse
  rw [hinfer]
  cases (parser.withSupply id).infer weights ex with
  | error e => rfl
  | ok p => exact congrArg Except.ok (hconclude p)

/-- **Parses do not influence each other.** Whatever increasing sequence of numbers a parse sees, by either search, it
fails with the same error or has the same result up to the numbers of its derivations. -/
theorem parse_withSupply {supply supply' : Nat → Nat} (hs : StrictMono supply) (hs' : StrictMono supply')
    (parser : Parser α) (weights : Weights α) (ex : Example) (learning : Bool) :
    ((parser.withSupply supply).parse weights ex learning).map ParseResult.unnumbered =
      ((parser.withSupply supply').parse weights ex learning).map ParseResult.unnumbered := by
  -- either parse is the one with the numbers from zero on, renumbered
  have hfree : ∀ f : Nat → Nat, StrictMono f →
      ((parser.withSupply f).parse weights ex learning).map ParseResult.unnumbered =
        ((parser.withSupply id).parse weights ex learning).map ParseResult.unnumbered := by
    intro f hf
    rw [parse_renumber hf]
    cases (parser.withSupply id).parse weights ex learning with
    | error e => rfl
    | ok r => exact congrArg Except.ok r.unnumbered_renumber
  rw [hfree supply hs, hfree supply' hs']

/-- The sum of two terms, parsed with the numbers from zero on and with numbers that start later and have gaps. -/
theorem parse_withSupply_sample : ∃ (parser : Parser Float) (r r' : ParseResult Float),
    Parser.ofRules sampleRules .standard {} .matching = .ok parser ∧
      parser.parse Weights.new sampleText false = .ok r ∧ r.predictions.length = 1 ∧
      (parser.withSupply fun i => 3 * i + 5).parse Weights.new sampleText false = .ok r' ∧
      r'.unnumbered = r.unnumbered := by
  obtain ⟨parser, p, hparser, hp, -, hroots⟩ :=
    exists_of_sampleOutcome (show sampleOutcome .standard = some (1, 1) by decide +kernel)
  have hoptions : parser.options = .standard := (Parser.ofRules_eq_ok hparser).2.1
  have hsupply : parser.withSupply (fun i => i) = parser := by
    unfold withSupply
    rw [show (fun i : Nat => i) = parser.options.supply by rw [hoptions]; rfl]
  have hr : parser.parse Weights.new sampleText false = .ok (parser.conclude sampleText false p) := by
    unfold parse
    rw [hp]
    rfl
  have hgaps : StrictMono fun i : Nat => 3 * i + 5 := by
    intro i j h
    dsimp only
    omega
  have hzero : StrictMono fun i : Nat => i := fun i j h => h
  have hsame := parse_withSupply hgaps hzero parser Weights.new sampleText false
  rw [hsupply, hr] at hsame
  cases hr' : (parser.withSupply fun i => 3 * i + 5).parse Weights.new sampleText false with
  | error e =>
    rw [hr'] at hsame
    cases hsame
  | ok r' =>
    rw [hr'] at hsame
    exact ⟨parser, _, r', hparser, hr, hroots, hr', Except.ok.inj hsame⟩

end Parser

end Parlance
