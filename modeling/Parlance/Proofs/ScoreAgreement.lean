import Parlance.Proofs.Balance
import Parlance.Proofs.Cutting
import Parlance.Proofs.Scoring
import Parlance.Proofs.SearchInvariant

/-!
# `Proofs.ScoreAgreement` — scores are what they would be if they were computed anew

Both kinds of search score a derivation when it is made and never touch the score again, unless there is noise. Its
children were scored before it, and stay as they are. So in exact arithmetic each score is at every moment what one gets
from the tree, whether from the leaves up or from all features of the tree, and a search that takes the best derivations
first gains nothing from computing the scores of its roots anew: the cells are in order already.

## Contents
- **Making.** `scoredFrom_rated`: a derivation is given its score when it is featurized.
- **Bottom up.** `BottomUp.scored_of_mem_moments`.
- **Best first.** `BestFirst.Ranked`, what a search keeps, and `rerank_eq_self`.
- **Parses.** `Parser.agrees_of_mem_arenas`.
-/

namespace Parlance

open Progress

variable {α : Type} [Score α]

/-! ## Making -/

section Making

variable [Score.Arithmetic α] {task : Task α} {p : Progress α} {d : Derivation α}

/-- A derivation that has just been made has no score. -/
theorem Derivation.isScored_make (cat : String) (first last : Nat) (rule : Rule) (children : List Nat)
    (canonical : String) (candidate : Candidate) (created : Nat) :
    (make cat first last rule children canonical candidate created : Derivation α).isScored = false := by
  have hnan : Score.isNaN (Score.nan : α) = true := Score.Arithmetic.isNaN_nan
  show (!Score.isNaN (Score.nan : α)) = false
  rw [hnan]
  rfl

omit [Score.Arithmetic α] in
/-- **Featurizing gives a derivation its score.** -/
theorem scoredFrom_rated (hd : d.isScored = false) (hchildren : ∀ c ∈ d.children, c < p.arena.size) :
    p.arena.ScoredFrom task.weights (p.rated task d) := by
  have hrated : p.rated task d = p.arena.scoreLocal task.weights (p.extract task d) := by
    unfold rated featurize
    rw [if_neg (by rw [hd]; exact Bool.false_ne_true)]
  rw [hrated]
  exact ⟨hchildren, rfl⟩

end Making

/-! ## Bottom up -/

namespace BottomUp

variable {task : Task α} {p : Progress α} {done log : List (Act α)} {first last : Nat}

/-- An act puts in what has no score yet, and builds on what is there. -/
structure Builds (task : Task α) (_ : List (Act α)) (p : Progress α) (a : Act α) : Prop where
  unscored : (a.fresh task p).isScored = false
  children : ∀ c ∈ a.children, c < p.arena.size

theorem size_le_carryOut (task : Task α) (p : Progress α) (a : Act α) :
    p.arena.size ≤ (a.carryOut task p).arena.size := by
  cases a with
  | plant d => exact (adds_carryOut (a := .plant d) fun _ => nofun).size_le
  | add o => exact (adds_carryOut (a := .add o) fun _ => nofun).size_le
  | cut cell => exact size_cutCell.ge

section Noiseless

variable [Score.Arithmetic α]

theorem builds_cut (cell : Nat × Nat × String) : Builds task done p (.cut cell) :=
  ⟨Derivation.isScored_make _ _ _ _ _ _ _ _, fun _ hc => nomatch hc⟩

/-- Rules are applied to what was there before the first of them. -/
theorem along_builds_applyAllActs {l : List Application} (hl : ∀ a ∈ l, ∀ c ∈ a.children, c < p.arena.size) :
    Along task (Builds task) done p (applyAllActs task p l) := by
  have hkept : Along task (Builds task) done p (applyAllActs task p l) ∧
      p.arena.size ≤ (after task p (applyAllActs task p l)).arena.size := by
    refine along_of (R := fun _ q => p.arena.size ≤ q.arena.size) (Nat.le_refl _) fun act hact done q hq => ?_
    obtain ⟨a, ha, candidate, rfl⟩ := exists_of_mem_applyAllActs hact
    refine ⟨⟨Derivation.isScored_make _ _ _ _ _ _ _ _, fun c hc => ?_⟩, hq.trans (size_le_carryOut task q _)⟩
    exact Nat.lt_of_lt_of_le (hl a ha c hc) hq
  exact hkept.1

theorem along_builds_pruneActs {pruned : List String} {cat : String} :
    Along task (Builds task) done p (pruneActs first last pruned cat) := by
  unfold pruneActs
  split
  · exact trivial
  · exact ⟨builds_cut _, trivial⟩

theorem along_builds_unaryActs {state : Progress α × List String} (h : InPlace task state.1) (rule : Rule) :
    Along task (Builds task) done state.1 (unaryActs task first last state rule) := by
  unfold unaryActs
  split
  case isTrue => exact trivial
  case isFalse =>
    obtain ⟨p, pruned⟩ := state
    dsimp only
    rw [along_append]
    refine ⟨along_builds_pruneActs, ?_⟩
    rw [after_pruneActs]
    refine along_builds_applyAllActs fun a ha c hc => ?_
    obtain ⟨d, hd, rfl⟩ := List.mem_map.mp ha
    obtain rfl := List.mem_singleton.mp hc
    have hplace := inPlace_after h (pruneActs first last pruned ((rule.rhs.head?).getD ""))
    rw [after_pruneActs] at hplace
    exact hplace.lt _ _ _ _ hd

theorem along_builds_cutActs (cats : List String) (state : Progress α × List String) :
    Along task (Builds task) done state.1 (cutActs first last cats state) := by
  induction cats generalizing done state with
  | nil => exact trivial
  | cons cat rest ih =>
    obtain ⟨p, pruned⟩ := state
    rw [cutActs, along_append]
    refine ⟨along_builds_pruneActs, ?_⟩
    rw [after_pruneActs]
    exact ih (pruneOnce first last (p, pruned) cat)

theorem along_builds_unaries (unaries : List Rule) (h : InPlace task p) :
    Along task (Builds task) done p
      (foldActs (applyUnary task first last) (unaryActs task first last) unaries (p, [])) := by
  have hstep : ∀ (behind : List Rule) (rule : Rule) (ahead : List Rule) (done : List (Act α))
      (state : Progress α × List String), unaries = behind ++ rule :: ahead → InPlace task state.1 →
      Along task (Builds task) done state.1 (unaryActs task first last state rule) ∧
        ∀ t, applyUnary task first last state rule = .ok t → InPlace task t.1 := by
    intro _ rule _ _ state _ hstate
    refine ⟨along_builds_unaryActs hstate rule, fun t ht => ?_⟩
    rw [← after_unaryActs ht]
    exact inPlace_after hstate _
  exact (along_foldActs (v := Prod.fst) (s := (p, [])) (R := fun _ _ state => InPlace task state.1) h
    (fun _ _ _ => after_unaryActs) hstep).1

/-- **Building a span** builds on what is in the chart. -/
theorem along_builds_spanActs (trie : Trie) (unaries : List Rule) (h : InPlace task p) (span : Nat × Nat) :
    Along task (Builds task) done p (spanActs task trie unaries p span) := by
  obtain ⟨first, last⟩ := span
  unfold spanActs
  refine along_andThen (v := id) (fun _ => after_applyAllActs)
    (along_builds_applyAllActs fun a ha c hc => ?_) fun p₁ h₁ => ?_
  · rcases parts_of_mem_coverings h.distinct (Nat.le_refl first) ha c hc with hc | ⟨f, l, cat, -, hc⟩
    · cases hc
    · exact h.lt f l cat c hc
  have hp₁ : InPlace task p₁ := after_applyAllActs h₁ ▸ inPlace_after h _
  refine along_andThen (v := id) (fun _ => after_applyAllActs)
    (along_builds_applyAllActs fun a ha c hc => ?_) fun p₂ h₂ => ?_
  · obtain ⟨cat, hc⟩ := parts_of_mem_wholeSpan hp₁.distinct ha c hc
    exact hp₁.lt _ _ _ _ hc
  have hp₂ : InPlace task p₂ := after_applyAllActs h₂ ▸ inPlace_after hp₁ _
  exact along_andThen (v := Prod.fst) (fun _ => after_unaries) (along_builds_unaries unaries hp₂)
    fun state _ => along_builds_cutActs _ state

/-- **Every act of a parse** puts in what has no score yet, and builds on what is there. -/
theorem along_builds_acts (task : Task α) (trie : Trie) (unaries : List Rule) :
    Along task (Builds task) [] (startWithTerminals task) (acts task trie unaries) := by
  have hplant : ∀ a ∈ (terminalDerivations task).map Act.plant, ∀ done p, InPlace task p →
      Builds task done p a ∧ InPlace task (a.carryOut task p) := by
    intro a ha done p hp
    obtain ⟨d, hd, rfl⟩ := List.mem_map.mp ha
    obtain ⟨t, -, rfl⟩ := List.mem_map.mp hd
    exact ⟨⟨Derivation.isScored_make _ _ _ _ _ _ _ _, fun _ hc => nomatch hc⟩, hp.carryOut _⟩
  obtain ⟨hseed, hplace⟩ := along_of (R := fun _ p => InPlace task p) (inPlace_start task) hplant
  have hafter : after task (startWithTerminals task) ((terminalDerivations task).map .plant) = seed task :=
    after_map_plant task _ _
  unfold acts
  rw [along_append]
  refine ⟨hseed, ?_⟩
  rw [hafter] at hplace ⊢
  have hstep : ∀ (behind : List (Nat × Nat)) (span : Nat × Nat) (ahead : List (Nat × Nat)) (done : List (Act α))
      (p : Progress α), spansByLength task.length = behind ++ span :: ahead → InPlace task p →
      Along task (Builds task) done p (spanActs task trie unaries p span) ∧
        ∀ q, buildSpan task trie unaries p span = .ok q → InPlace task q := by
    intro _ span _ _ p _ hp
    refine ⟨along_builds_spanActs trie unaries hp span, fun q hq => ?_⟩
    rw [← after_spanActs hq]
    exact inPlace_after hp _
  exact (along_foldActs (v := id) (R := fun _ _ p => InPlace task p) hplace (fun _ _ _ => after_spanActs) hstep).1

omit [Score.Arithmetic α] in
/-- **Every act keeps the scores**, if there is no noise. -/
theorem scored_carryOut (hquiet : task.beam.Quiet) (hplace : InPlace task p) (h : p.arena.Scored task.weights)
    {a : Act α} (ha : Builds task done p a) : (a.carryOut task p).arena.Scored task.weights := by
  by_cases hcut : ∃ cell, a = .cut cell
  case pos =>
    obtain ⟨⟨first, last, cat⟩, rfl⟩ := hcut
    have hbares : (cutCell p first last cat).arena.bares = p.arena.bares :=
      Chart.bares_prune (hplace.beam ▸ hquiet) p.arena cat
    refine h.congr size_cutCell fun i => ?_
    have hbare : ((cutCell p first last cat).arena.get i).bare = (p.arena.get i).bare :=
      Arena.bare_get_congr (congrArg (·[i]?) hbares)
    have hread := congrArg (fun d : Derivation α => (d.children, d.features, d.score)) hbare
    exact hread
  case neg =>
    have hcut : ∀ cell, a ≠ .cut cell := fun cell he => hcut ⟨cell, he⟩
    have hadds : Adds p (p.rated task (a.fresh task p)) (a.carryOut task p) := adds_carryOut hcut
    have hscored : p.arena.ScoredFrom task.weights (p.rated task (a.fresh task p)) :=
      scoredFrom_rated ha.unscored (by rw [Act.children_fresh hcut]; exact ha.children)
    rcases hadds.effect with ⟨harena, -⟩ | ⟨harena, -⟩
    · rw [harena]
      exact h
    · rw [harena]
      exact h.push hscored

/-- **At every moment of a parse without noise** the derivations have the scores that they were given. -/
theorem scored_of_mem_moments (hquiet : task.beam.Quiet) {trie : Trie} {unaries : List Rule} :
    ∀ p ∈ moments task trie unaries, p.arena.Scored task.weights := by
  intro p hp
  obtain ⟨first, hfirst, rfl⟩ := reaches_acts hp
  have hboth := (along_builds_acts task trie unaries).invariant
    (P := fun _ p => InPlace task p ∧ p.arena.Scored task.weights)
    ⟨inPlace_start task, Arena.scored_empty task.weights⟩
    (fun done p a ha h => ⟨h.1.carryOut a, scored_carryOut hquiet h.1 h.2 ha⟩) hfirst
  exact hboth.2

end Noiseless

end BottomUp

/-! ## Best first -/

namespace Chart

variable {chart : Chart α} {arena : Arena α} {first last : Nat} {cat : String}

/-- A sorted cell. -/
theorem get_sortCell_self : (chart.sortCell arena first last cat).get first last cat =
    arena.sort (chart.get first last cat) := by
  unfold sortCell
  by_cases hk : cat ∈ (chart.cellAt first last).keys
  case pos => exact get_setCell_self hk _
  case neg =>
    have hnil : chart.get first last cat = [] := get_of_not_mem hk
    have hsort : arena.sort ([] : List Nat) = [] := arena.sort_eq_self List.Pairwise.nil
    rw [setCell, contains_eq, if_neg fun hc => hk (Table.contains_iff.mp hc), hnil, hsort]

/-- **Sorting a cell that is in order** changes nothing. -/
theorem sortCell_eq_self (h : arena.Sorted (chart.get first last cat)) :
    chart.sortCell arena first last cat = chart := by
  unfold sortCell
  rw [Arena.sort_eq_self h, setCell_get]

end Chart

namespace BestFirst

variable {index : SiblingIndex} {task : Task α} {p q : Progress α} {d : Derivation α}

/-- **A parse in which scores are what they were given**, and the best derivations come first in every cell. -/
structure Ranked (w : Weights α) (p : Progress α) : Prop where
  scored : p.arena.Scored w
  bounded : p.Bounded
  sorted : ∀ f l c, p.arena.Sorted (p.chart.get f l c)

theorem Ranked.congr {w : Weights α} (h : Ranked w p) (harena : q.arena = p.arena)
    (hcells : q.chart.cells = p.chart.cells) : Ranked w q := by
  have hget : ∀ f l c, q.chart.get f l c = p.chart.get f l c := by
    intro f l c
    unfold Chart.get Chart.cell?
    rw [hcells]
  constructor
  · rw [harena]
    exact h.scored
  · intro f l c i hi
    rw [hget] at hi
    rw [harena]
    exact h.bounded f l c i hi
  · intro f l c
    rw [hget, harena]
    exact h.sorted f l c

/-- **Adding a derivation to its cell** sorts it in. -/
theorem Ranked.addToBoundedChart [Score.Ordered α] {w : Weights α} (h : Ranked w p) (hd : p.arena.ScoredFrom w d) :
    Ranked w (p.addToBoundedChart d).2 := by
  unfold Progress.addToBoundedChart
  dsimp only
  split
  case isTrue => exact h.congr rfl rfl
  case isFalse =>
    have hadds : BottomUp.Adds p d (p.count.insert d) := ⟨rfl, .inr ⟨rfl, rfl⟩⟩
    have hbounded : (p.count.insert d).Bounded := by
      intro f l c i hi
      show i < (p.arena.push d).size
      rw [Arena.size_push]
      rcases Chart.of_mem_get_push hi with hi | ⟨-, rfl⟩
      · exact Nat.lt_succ_of_lt (h.bounded f l c i hi)
      · exact Nat.lt_succ_self _
    refine ⟨h.scored.push hd, fun f l c i hi => ?_, fun f l c => ?_⟩
    · have hperm := Chart.get_sortCell_perm (p.count.insert d).chart (p.count.insert d).arena d.first d.last d.cat f l c
      exact hbounded f l c i (hperm.mem_iff.mp hi)
    · by_cases hcell : f = d.first ∧ l = d.last ∧ c = d.cat
      case pos =>
        obtain ⟨rfl, rfl, rfl⟩ := hcell
        dsimp only
        rw [Chart.get_sortCell_self]
        exact Arena.sorted_sort _ _
      case neg =>
        -- the other cells are as before, and their derivations too
        have hget : ((p.count.insert d).chart.sortCell (p.count.insert d).arena d.first d.last d.cat).get f l c =
            p.chart.get f l c := by
          unfold Chart.sortCell
          rw [Chart.get_setCell_of_ne _ hcell]
          exact Chart.get_push_of_ne hcell
        dsimp only
        rw [hget]
        refine (h.sorted f l c).congr_bare fun i hi => congrArg _ ?_
        exact hadds.arena_get (h.bounded f l c i hi)

/-- **What a search keeps about scores.** -/
def scoreFacts (w : Weights α) : Facts α where
  parse := Ranked w
  waiting arena d := arena.ScoredFrom w d
  applied arena a := ∀ c ∈ a.children, c < arena.size

theorem kept_scoreFacts [Score.Arithmetic α] (index : SiblingIndex) (task : Task α) :
    (scoreFacts task.weights).Kept index task where
  start := by
    have hget : ∀ f l c, (startWithTerminals task).chart.get f l c = [] := by
      intro f l c
      have hcell : (startWithTerminals task).chart.cellAt f l = .empty := Chart.cellAt_new _ _ f l
      rw [Chart.get_eq, hcell]
      rfl
    refine ⟨Arena.scored_empty task.weights, fun f l c i hi => ?_, fun f l c => ?_⟩
    · rw [hget] at hi
      cases hi
    · rw [hget]
      exact List.Pairwise.nil
  count harena hcells h := Ranked.congr h harena hcells
  terminal d hd p _ := by
    obtain ⟨t, -, rfl⟩ := List.mem_map.mp hd
    exact scoredFrom_rated (Derivation.isScored_make _ _ _ _ _ _ _ _) fun _ hc => nomatch hc
  literal a ha arena c hc := by
    obtain ⟨span, -, ha⟩ := List.mem_flatMap.mp ha
    rw [List.mem_singleton.mp (children_of_mem_applications ha)] at hc
    cases hc
  make _ ha _ := scoredFrom_rated (Derivation.isScored_make _ _ _ _ _ _ _ _) ha
  add h hd := Ranked.addToBoundedChart h hd
  combine {p d i q} h hd hadd a ha := by
    have hq := Ranked.addToBoundedChart h hd
    have hi : ∀ i, (p.addToBoundedChart d).1 = some i → i < (p.addToBoundedChart d).2.arena.size := by
      unfold Progress.addToBoundedChart
      dsimp only
      split
      · intro i hi
        cases hi
      · intro i hi
        rw [← Option.some.inj hi]
        show p.arena.size < (p.arena.push d).size
        rw [Arena.size_push]
        exact Nat.lt_succ_self _
    rw [hadd] at hq hi
    exact lt_of_mem_combinations hq.bounded (hi i rfl) ha
  waits e h := Arena.ScoredFrom.push h e
  applies {arena a} e h c hc := by
    rw [Arena.size_push]
    exact Nat.lt_succ_of_lt (h c hc)

/-- **Computing the scores of the roots anew** changes nothing, and nor does sorting them again. -/
theorem rerank_eq_self [Score.Arithmetic α] (h : Ranked task.weights p) : rerank task p = p := by
  have harena : ∀ l : List Nat, (∀ i ∈ l, i < p.arena.size) →
      l.foldl (fun arena i => (arena.rescore task.weights i).1) p.arena = p.arena := by
    intro l
    induction l with
    | nil => exact fun _ => rfl
    | cons i l ih =>
      intro hl
      rw [List.foldl_cons, h.scored.rescore_eq (hl i List.mem_cons_self)]
      exact ih fun j hj => hl j (List.mem_cons_of_mem _ hj)
  have hroots : p.arena.Sorted (p.chart.get 0 task.length rootCat) := h.sorted _ _ _
  unfold rerank
  dsimp only
  rw [harena p.roots fun i hi => h.bounded _ _ _ i hi, Chart.sortCell_eq_self hroots]

end BestFirst

/-! ## Parses -/

namespace Parser

variable [Score.Arithmetic α]

/-- At every moment of a parse without noise the derivations have the scores that they were given. -/
theorem scored_of_mem_moments (parser : Parser α) (hnoise : Score.lt Score.zero parser.options.noise = false)
    (weights : Weights α) (ex : Example) : ∀ p ∈ parser.moments weights ex, p.arena.Scored weights := by
  intro p hp
  unfold moments at hp
  cases hkind : parser.options.kind with
  | bottomUp =>
    rw [hkind] at hp
    have hquiet : (parser.task weights ex).beam.Quiet := hnoise
    exact BottomUp.scored_of_mem_moments hquiet p hp
  | bestFirst search =>
    rw [hkind] at hp
    obtain ⟨s, hs, hp⟩ := BestFirst.exists_state_of_mem_moments hp
    have hranked := ((BestFirst.kept_scoreFacts parser.siblings (parser.task weights ex)).meets s hs).parse
    rcases hp with rfl | rfl
    · exact hranked.scored
    · rw [BestFirst.rerank_eq_self hranked]
      exact hranked.scored

/-- **Scores are what they would be if they were computed anew.** Let arithmetic be exact, and let there be no noise.
Then in every state that parsing a text goes through, by whatever grammar, options and weights, and whether it succeeds
or not, the score of each derivation is what one gets from the leaves of its tree up, and the weighted sum of the
features of the whole tree. In a search that takes the best derivations first this is true of each derivation that
waits as well, as if it had just been added, and computing the scores of the roots anew changes neither a score nor the
order of a cell. -/
theorem agrees_of_mem_arenas (parser : Parser α) (hnoise : Score.lt Score.zero parser.options.noise = false)
    (weights : Weights α) (ex : Example) :
    (∀ learning, ∀ arena ∈ parser.arenas weights ex learning, ∀ i < arena.size, arena.Agrees weights i) ∧
      ∀ search, parser.options.kind = .bestFirst search →
        ∀ s ∈ BestFirst.states search parser.siblings (parser.task weights ex) parser.options.steps,
          (∀ item ∈ s.agenda.contents,
            (s.progress.arena.push item.next).Agrees weights s.progress.arena.size) ∧
          BestFirst.rerank (parser.task weights ex) s.progress = s.progress := by
  have hscored := scored_of_mem_moments parser hnoise weights ex
  constructor
  · intro learning arena harena i hi
    refine Arena.Scored.agrees ?_ hi
    rcases List.mem_append.mp harena with harena | harena
    · obtain ⟨p, hp, rfl⟩ := List.mem_map.mp harena
      exact hscored p hp
    · -- what is done to predictions has no part in their scores
      obtain ⟨r, hr, harena⟩ := mem_andThen.mp harena
      obtain rfl := List.mem_singleton.mp harena
      obtain ⟨p, hp, hr⟩ := bind_eq_ok.mp hr
      obtain rfl := Except.ok.inj hr
      have hsettled : Derivation.Settled fun d : Derivation α => (d.children, d.features, d.score) := fun _ _ _ _ => rfl
      have hsize : (parser.conclude ex learning p).arena.size = p.arena.size :=
        Arena.size_eq_of_shapes ((shapes_setProbabilities _ _).trans (shapes_executePredictions _ _ _ _ _))
      exact (hscored p (mem_moments hp)).congr hsize fun i => parser.read_conclude hsettled ex learning p i
  · intro search _ s hs
    have hmeets := (BestFirst.kept_scoreFacts parser.siblings (parser.task weights ex)).meets s hs
    refine ⟨fun item hitem => ?_, BestFirst.rerank_eq_self hmeets.parse⟩
    have hadded := hmeets.parse.scored.push (hmeets.items item hitem).next
    refine hadded.agrees ?_
    rw [Arena.size_push]
    exact Nat.lt_succ_self _

/-- A search in which nothing is rounded. -/
def rationalOptions : ParserOptions RationalScore :=
  { ParserOptions.standard with kind := .bestFirst {}, steps := 30 }

/-- Weights that are not doubles, and not zero for features that nothing was learned of. -/
def rationalWeights : Weights RationalScore :=
  (Weights.new { Weights.standardOptions with defaultWeight := .of (1 / 3) }).set "rule :: fire" (.of (1 / 2))

/-- A state of the search for the sum of two terms: how many items wait, and what scores the derivations have. -/
def rationalState (k : Nat) : Option (Nat × List RationalScore) := do
  let parser ← (Parser.ofRules sampleRules rationalOptions {} .matching).toOption
  let s ← (BestFirst.states {} parser.siblings (parser.task rationalWeights sampleText) parser.options.steps)[k]?
  return (s.agenda.size, (List.range s.progress.arena.size).map s.progress.arena.score)

theorem exists_of_rationalState {k waiting : Nat} {scores : List RationalScore}
    (h : rationalState k = some (waiting, scores)) :
    ∃ parser s, Parser.ofRules sampleRules rationalOptions {} .matching = .ok parser ∧
      parser.options = rationalOptions ∧
      s ∈ BestFirst.states {} parser.siblings (parser.task rationalWeights sampleText) parser.options.steps ∧
      s.agenda.size = waiting ∧ (List.range s.progress.arena.size).map s.progress.arena.score = scores := by
  unfold rationalState at h
  cases hparser : Parser.ofRules sampleRules rationalOptions {} .matching with
  | error e =>
    rw [hparser] at h
    cases h
  | ok parser =>
    cases hs :
        (BestFirst.states {} parser.siblings (parser.task rationalWeights sampleText) parser.options.steps)[k]? with
    | none => simp [hparser, Except.toOption, hs] at h
    | some s =>
      simp only [hparser, Except.toOption, hs, Option.bind_eq_bind, Option.bind_some] at h
      obtain ⟨hwaiting, hscores⟩ := Prod.mk.inj (Option.some.inj h)
      obtain ⟨-, hoptions, -⟩ := ofRules_eq_ok hparser
      exact ⟨parser, s, rfl, hoptions, List.mem_of_getElem? hs, hwaiting, hscores⟩

/-- The sum of two terms has its root, and six items wait. -/
theorem agrees_of_mem_arenas_sample : ∃ (parser : Parser RationalScore) (s : BestFirst.Search RationalScore),
    Parser.ofRules sampleRules rationalOptions {} .matching = .ok parser ∧
      s ∈ BestFirst.states {} parser.siblings (parser.task rationalWeights sampleText) parser.options.steps ∧
      s.agenda.size = 6 ∧ s.progress.arena.score 6 = .of (10 / 3) ∧ s.progress.arena.Agrees rationalWeights 6 ∧
      BestFirst.rerank (parser.task rationalWeights sampleText) s.progress = s.progress := by
  obtain ⟨parser, s, hparser, hoptions, hs, hwaiting, hscores⟩ :=
    exists_of_rationalState (show rationalState 60 =
      some (6, [.of 0, .of (5 / 6), .of 0, .of 0, .of (5 / 6), .of (5 / 2), .of (10 / 3), .of 0]) by decide +kernel)
  have hnoise : Score.lt Score.zero parser.options.noise = false := by
    rw [hoptions]
    rfl
  have hkind : parser.options.kind = .bestFirst {} := by
    rw [hoptions]
    rfl
  obtain ⟨harenas, hsearch⟩ := agrees_of_mem_arenas parser hnoise rationalWeights sampleText
  have harena : s.progress.arena ∈ parser.arenas rationalWeights sampleText false := by
    refine List.mem_append_left _ (List.mem_map_of_mem ?_)
    unfold moments
    rw [hkind]
    exact List.mem_append_left _ (List.mem_map_of_mem hs)
  have hsize : s.progress.arena.size = 8 := by
    have hlength := congrArg List.length hscores
    rwa [List.length_map, List.length_range] at hlength
  rw [hsize] at hscores
  have hroot : s.progress.arena.score 6 = .of (10 / 3) := congrArg (·[6]!) hscores
  exact ⟨parser, s, hparser, hs, hwaiting, hroot, harenas false _ harena 6 (by omega), (hsearch {} hkind s hs).2⟩

end Parser

end Parlance
