import Parlance.Proofs.BeamParse
import Parlance.Proofs.Effects

/-!
# `Proofs.ErrorValues` — where derivations with an error as their value are kept out

A semantic function may execute what it makes. A parser can be told to keep derivations whose value is an error out of
its chart. Bottom up, it does so at every moment: whatever an act puts in has no error, and nothing else gets into a
cell. A search that takes the best derivations first never asks for the option: with it and without it, the search goes
through the same moments.

## Contents
- **Clean charts.** `Progress.Clean`, kept by every act.
- **Best first.** `BestFirst.moments_pruning`: the option has no part in it.
- **Parses.** `Parser.clean_moments`, and a chart that is not clean.
-/

namespace Parlance

open Progress

variable {α : Type} [Score α]

/-! ## Clean charts -/

namespace Progress

variable {task : Task α} {p : Progress α} {d : Derivation α}

/-- **No derivation in the chart has an error as its value.** -/
def Clean (p : Progress α) : Prop :=
  ∀ first last cat i, p.chart.Lists first last cat i → (p.arena.get i).hasErrorValue = false

theorem Clean.insert (hp : p.InRange) (h : p.Clean) (hd : d.hasErrorValue = false) : (p.insert d).Clean := by
  intro first last cat i hi
  show ((p.arena.push d).get i).hasErrorValue = false
  rcases Chart.Lists.of_push hi with hi | ⟨-, rfl⟩
  · rw [Arena.get_push_of_lt (hp first last cat i hi)]
    exact h first last cat i hi
  · rw [Arena.get_push_self]
    exact hd

/-- Adding to the chart under the option. -/
theorem Clean.addToChart (hprune : task.pruneErrors = true) (hp : p.InRange) (h : p.Clean) :
    (p.addToChart task d).Clean := by
  unfold Progress.addToChart
  split
  case isTrue => exact h
  case isFalse hd =>
    rw [hprune, Bool.true_and, Bool.not_eq_true] at hd
    exact Clean.insert (p := p.count) hp h hd

end Progress

namespace BottomUp

variable {task : Task α} {p : Progress α}

/-- **Every act keeps the chart clean** under the option. -/
theorem clean_carryOut (hprune : task.pruneErrors = true) (hp : p.InRange) (h : p.Clean) (a : Act α) :
    (a.carryOut task p).Clean := by
  have hfeat : ∀ {p : Progress α} (d : Derivation α), p.InRange → p.Clean →
      ((p.featurize task d).2.addToChart task (p.featurize task d).1).Clean := by
    intro p d hp h
    refine Clean.addToChart hprune (hp.featurize task d) ?_
    unfold featurize
    split
    · exact h
    · exact h
  cases a with
  | plant d => exact hfeat d hp h
  | add o => exact hfeat (p := (p.make task o.application o.candidate).2) _ hp h
  | cut cell =>
    intro first last cat i hi
    have hvalue : Derivation.Lasting (Derivation.hasErrorValue (α := α)) := fun _ _ _ _ _ _ => rfl
    exact (Chart.read_prune hvalue).trans (h first last cat i hi.of_prune)

/-- **Every moment of a bottom-up parse is clean** under the option. -/
theorem clean_of_mem_moments (hprune : task.pruneErrors = true) {trie : Trie} {unaries : List Rule} :
    ∀ p ∈ moments task trie unaries, p.Clean := by
  intro p hp
  have hempty : (startWithTerminals task).Clean := by
    rintro first last cat i ⟨l, hl, -⟩
    have hcell : (startWithTerminals task).chart.cellAt first last = .empty := Chart.cellAt_new _ _ first last
    rw [Chart.entries_eq, hcell] at hl
    cases hl
  have hboth : p.InRange ∧ p.Clean := by
    refine (reaches_acts hp).invariant (P := fun p => p.InRange ∧ p.Clean)
      ⟨inRange_startWithTerminals task, hempty⟩ ?_
    rintro a - p ⟨hp, h⟩
    exact ⟨inRange_carryOut hp a, clean_carryOut hprune hp h a⟩
  exact hboth.2

end BottomUp

/-! ## Best first -/

/-- The task with the option set to a value. -/
def Task.pruning (task : Task α) (b : Bool) : Task α := { task with pruneErrors := b }

namespace BestFirst

variable (options : Options α) (index : SiblingIndex) (task : Task α) (b : Bool)

theorem pushEach_pruning (a : Application) (items : List (Except SemanticError Candidate)) (s : Search α) :
    pushEach (task.pruning b) a items s = pushEach task a items s := by
  induction items generalizing s with
  | nil => rfl
  | cons item rest ih =>
    cases item with
    | error e => rfl
    | ok candidate => exact ih _

theorem push_pruning : push options (task.pruning b) = push options task := by
  funext s a results
  unfold push
  rw [pushEach_pruning]
  rfl

theorem pushApplication_pruning : pushApplication options (task.pruning b) = pushApplication options task := by
  funext s a
  unfold pushApplication
  rw [push_pruning]
  rfl

theorem combinations_pruning : combinations index (task.pruning b) = combinations index task := rfl

theorem step_pruning : step options index (task.pruning b) = step options index task := by
  funext item s
  unfold step
  rw [push_pruning, pushApplication_pruning, combinations_pruning]

theorem search_pruning (fuel : Nat) (s : Search α) :
    search options index (task.pruning b) fuel s = search options index task fuel s := by
  induction fuel generalizing s with
  | zero => rfl
  | succ fuel ih =>
    unfold search
    rw [step_pruning]
    simp only [ih]
    rfl

theorem seed_pruning : seed options index (task.pruning b) = seed options index task := by
  unfold seed
  rw [pushApplication_pruning]
  rfl

theorem run_pruning (fuel : Nat) : run options index (task.pruning b) fuel = run options index task fuel := by
  unfold run
  simp only [seed_pruning, search_pruning]
  rfl

theorem pushMoments_pruning : pushMoments options (task.pruning b) = pushMoments options task := by
  funext l s
  unfold pushMoments
  rw [pushApplication_pruning]

theorem stepMoments_pruning : stepMoments options index (task.pruning b) = stepMoments options index task := by
  funext item s
  unfold stepMoments
  rw [push_pruning, pushApplication_pruning, pushMoments_pruning, combinations_pruning]

theorem searchMoments_pruning (fuel : Nat) (s : Search α) :
    searchMoments options index (task.pruning b) fuel s = searchMoments options index task fuel s := by
  induction fuel generalizing s with
  | zero => rfl
  | succ fuel ih =>
    unfold searchMoments
    rw [step_pruning, stepMoments_pruning]
    simp only [ih]
    rfl

/-- **The option has no part in a best-first parse**, at any of its moments. -/
theorem moments_pruning (fuel : Nat) : moments options index (task.pruning b) fuel = moments options index task fuel := by
  have hsearch : searchMoments options index (task.pruning b) fuel = searchMoments options index task fuel :=
    funext (searchMoments_pruning options index task b fuel)
  unfold moments seedMoments
  rw [run_pruning, seed_pruning, hsearch, pushMoments_pruning]
  rfl

end BestFirst

/-! ## Parses -/

namespace Parser

/-- The parser with the option set to a value. -/
def pruning (parser : Parser α) (b : Bool) : Parser α :=
  { parser with options := { parser.options with pruneErrors := b } }

/-- **What the option does.** Bottom up it keeps the chart clean at every moment of every parse. For a search that takes
the best derivations first it does nothing: each parse goes through the moments that it goes through without it. -/
theorem clean_moments (parser : Parser α) (hprune : parser.options.pruneErrors = true) (weights : Weights α)
    (ex : Example) :
    (parser.options.kind = .bottomUp → ∀ p ∈ parser.moments weights ex, p.Clean) ∧
      ∀ search, parser.options.kind = .bestFirst search →
        parser.moments weights ex = (parser.pruning false).moments weights ex := by
  constructor
  · intro hkind p hp
    unfold moments at hp
    rw [hkind] at hp
    exact BottomUp.clean_of_mem_moments hprune p hp
  · intro search hkind
    have hkind' : (parser.pruning false).options.kind = .bestFirst search := hkind
    unfold moments
    rw [hkind, hkind']
    exact (BestFirst.moments_pruning search parser.siblings (parser.task weights ex) false parser.options.steps).symm

/-- A grammar whose only root is executed to an error. -/
def failingRules : List Rule := [
  { lhs := "$A", rhs := ["a"], sem := (ConstantFn.new (.var "x") none).toFn },
  { lhs := "$ROOT", rhs := ["$A"], sem := executingFn }]

/-- A few steps of a search that keeps errors out, or means to. -/
def failingOptions (kind : SearchKind Float) : ParserOptions Float :=
  { ParserOptions.standard with kind, pruneErrors := true, steps := 10 }

/-- The derivations of a category over the text at one moment of a parse: whether their values are errors. -/
def errorsAt (kind : SearchKind Float) (moment : Nat) (cat : String) : Option (List Bool) := do
  let parser ← (Parser.ofRules failingRules (failingOptions kind) {} .matching).toOption
  let p ← (parser.moments Weights.new shortText)[moment]?
  return (p.chart.get 0 1 cat).map fun i => (p.arena.get i).hasErrorValue

theorem exists_of_errorsAt {kind : SearchKind Float} {moment : Nat} {cat : String} {errors : List Bool}
    (h : errorsAt kind moment cat = some errors) :
    ∃ parser p, Parser.ofRules failingRules (failingOptions kind) {} .matching = .ok parser ∧
      parser.options = failingOptions kind ∧ p ∈ parser.moments Weights.new shortText ∧
      (p.chart.get 0 1 cat).map (fun i => (p.arena.get i).hasErrorValue) = errors := by
  unfold errorsAt at h
  cases hparser : Parser.ofRules failingRules (failingOptions kind) {} .matching with
  | error e =>
    rw [hparser] at h
    cases h
  | ok parser =>
    rw [hparser] at h
    cases hp : (parser.moments Weights.new shortText)[moment]? with
    | none => simp [Except.toOption, hp] at h
    | some p =>
      simp only [Except.toOption, hp, Option.bind_eq_bind, Option.bind_some] at h
      obtain ⟨-, hoptions, -⟩ := ofRules_eq_ok hparser
      exact ⟨parser, p, rfl, hoptions, List.mem_of_getElem? hp, Option.some.inj h⟩

/-- Bottom up the term without a value is in the chart, and the root that it would be executed for never is. -/
theorem clean_moments_sample : ∃ (parser : Parser Float) (p : Progress Float),
    Parser.ofRules failingRules (failingOptions .bottomUp) {} .matching = .ok parser ∧
      p ∈ parser.moments Weights.new shortText ∧ (p.chart.get 0 1 "$A").length = 1 ∧
      ∀ p ∈ parser.moments Weights.new shortText, p.Clean := by
  obtain ⟨parser, p, hparser, hoptions, hp, herrors⟩ :=
    exists_of_errorsAt (show errorsAt .bottomUp 20 "$A" = some [false] by decide +kernel)
  have hlength := congrArg List.length herrors
  rw [List.length_map] at hlength
  have hprune : parser.options.pruneErrors = true := by
    rw [hoptions]
    rfl
  have hkind : parser.options.kind = .bottomUp := by
    rw [hoptions]
    rfl
  exact ⟨parser, p, hparser, hp, hlength, (clean_moments parser hprune Weights.new shortText).1 hkind⟩

/-- A search that takes the best derivations first puts that root into its chart. -/
theorem clean_moments_not : ∃ (parser : Parser Float) (p : Progress Float),
    Parser.ofRules failingRules (failingOptions (.bestFirst {})) {} .matching = .ok parser ∧
      parser.options.pruneErrors = true ∧ p ∈ parser.moments Weights.new shortText ∧ ¬ p.Clean := by
  obtain ⟨parser, p, hparser, hoptions, hp, herrors⟩ :=
    exists_of_errorsAt (show errorsAt (.bestFirst {}) 37 "$ROOT" = some [true] by decide +kernel)
  refine ⟨parser, p, hparser, by rw [hoptions]; rfl, hp, fun hclean => ?_⟩
  obtain ⟨i, hi, he⟩ := List.exists_of_mem_map (herrors ▸ List.mem_singleton_self true)
  rw [hclean 0 1 "$ROOT" i (Chart.lists_of_mem_get hi)] at he
  cases he

end Parser

end Parlance
