import Parlance.Proofs.Growth

/-!
# `Proofs.Unfolding` — derivations as trees

Two parses give different numbers to the same derivation. What they have in common are the trees: a derivation
with those that it is made of, each by what it says. The results of a rule, and the scores of their derivations,
depend on the trees of its children only, so that parses can be compared by the trees in their cells.

## Contents
- **Trees.** `DerivationTree.isAt`; trees are steady.
- **Compositions.** `Composition`, a rule over trees, and `trees`, what it makes.
- **Growing.** The trees of new derivations.
-/

namespace Parlance

variable {α : Type}

/-! ## Trees -/

/-- Whether the tree belongs in the cell of a category over a span. -/
def DerivationTree.isAt (t : DerivationTree α) (first last : Nat) (cat : String) : Bool :=
  t.label.first == first && t.label.last == last && t.label.cat == cat

variable [Score α]

theorem Arena.steady_unfold : Progress.Steady (Arena.unfold (α := α)) :=
  fun _ _ h _ hi => unfold_of_isPrefix h hi

/-! ## Compositions -/

/-- A rule over a span, with the trees that it is applied to. -/
structure Composition (α : Type) where
  rule : Rule
  first : Nat
  last : Nat
  children : List (DerivationTree α)

/-- An application by the trees of its children. -/
def Progress.Application.over (a : Progress.Application) (arena : Arena α) : Composition α where
  rule := a.rule
  first := a.first
  last := a.last
  children := a.children.map arena.unfold

namespace Composition

/-- What the semantic function is given. -/
def call (c : Composition α) : Call where
  first := c.first
  last := c.last
  children := c.children.map fun t => t.label.toChild

/-- The results of the semantic function. -/
def results (c : Composition α) (task : Task α) : Stream Candidate :=
  c.rule.sem.apply task.ctx task.ex c.call

/-- None of the results is an error. -/
def Succeeds (c : Composition α) (task : Task α) : Prop :=
  ∀ x ∈ (c.results task).items, ∃ candidate, x = .ok candidate

/-- The features that are found for the derivation of a result. -/
def featuresOf (c : Composition α) (task : Task α) (candidate : Candidate) : Features α :=
  let d : Derivation α := .ofCandidate c.rule c.call [] candidate 0
  task.extractor.extract task.ex (.node d.label c.children)

/-- What the derivation of a result says by itself, once it is scored. -/
def labelOf (c : Composition α) (task : Task α) (candidate : Candidate) : Label α :=
  let d : Derivation α := .ofCandidate c.rule c.call [] candidate 0
  if d.isScored then d.label
  else
    let features := c.featuresOf task candidate
    { d.label with
      features
      score := task.weights.dot features + Score.sum (c.children.map fun t => t.label.score) }

/-- The tree of a result. -/
def tree (c : Composition α) (task : Task α) (candidate : Candidate) : DerivationTree α :=
  .node (c.labelOf task candidate) c.children

/-- Whether the derivation of a result gets into the chart. -/
def keeps (task : Task α) (candidate : Candidate) : Bool :=
  !(task.pruneErrors && (candidate.value.map Value.isError).getD false)

/-- **The trees that a rule makes**, one for each result that is kept. -/
def trees (task : Task α) (c : Composition α) : List (DerivationTree α) :=
  (((c.results task).items.filterMap Except.toOption).filter (keeps task)).map (c.tree task)

theorem label_ofCandidate (c : Composition α) (task : Task α) (candidate : Candidate) :
    (c.labelOf task candidate).cat = c.rule.lhs ∧ (c.labelOf task candidate).first = c.first ∧
      (c.labelOf task candidate).last = c.last := by
  unfold labelOf
  dsimp only
  split
  · exact ⟨rfl, rfl, rfl⟩
  · exact ⟨rfl, rfl, rfl⟩

/-- A rule makes trees of its left-hand side over its span. -/
theorem isAt_of_mem_trees {c : Composition α} {task : Task α} {t : DerivationTree α}
    (h : t ∈ c.trees task) :
    t.label.cat = c.rule.lhs ∧ t.label.first = c.first ∧ t.label.last = c.last := by
  obtain ⟨candidate, -, rfl⟩ := List.mem_map.mp h
  exact c.label_ofCandidate task candidate

end Composition

namespace Progress

variable {task : Task α} {p q : Progress α}

theorem call_over (p : Progress α) (a : Application) : (a.over p.arena).call = p.call a := by
  unfold Composition.call Application.over call
  dsimp only
  rw [List.map_map]
  congr 1
  refine List.map_congr_left fun c _ => ?_
  show (p.arena.unfold c).label.toChild = _
  rw [Arena.label_unfold]
  rfl

theorem results_over (p : Progress α) (a : Application) :
    (a.over p.arena).results task = p.results task a := by
  unfold Composition.results results
  rw [call_over]
  rfl

theorem succeeds_over (p : Progress α) (a : Application) :
    (a.over p.arena).Succeeds task ↔ p.Succeeds task a := by
  unfold Composition.Succeeds Succeeds
  rw [results_over]

/-- What a derivation says by itself once it is scored. -/
theorem label_rated (p : Progress α) (d : Derivation α) :
    (p.rated task d).label =
      if d.isScored then d.label
      else
        { d.label with
          features := (p.extract task d).features
          score := task.weights.dot (p.extract task d).features + Score.sum (d.children.map p.arena.score) } := by
  unfold rated featurize
  by_cases h : d.isScored
  · rw [if_pos h, if_pos h]
  · rw [if_neg h, if_neg h]
    rfl

/-- **What the derivation of a result says** depends on the trees of the children only. -/
theorem label_derive (p : Progress α) (o : Output) (n : Nat) :
    (p.derive task o n).label = (o.application.over p.arena).labelOf task o.candidate := by
  have hscores : (o.application.over p.arena).children.map (fun t => t.label.score) =
      o.application.children.map p.arena.score := by
    unfold Application.over
    dsimp only
    rw [List.map_map]
    refine List.map_congr_left fun c _ => ?_
    show (p.arena.unfold c).label.score = _
    rw [Arena.label_unfold]
    rfl
  unfold derive Composition.labelOf Composition.featuresOf
  dsimp only
  rw [label_rated, call_over, hscores]
  rfl

theorem unfold_derive (p : Progress α) (o : Output) (n : Nat) :
    (p.derive task o n).unfold p.arena = (o.application.over p.arena).tree task o.candidate := by
  unfold Derivation.unfold Composition.tree
  rw [label_derive, children_derive]
  rfl

/-- The trees of the derivations of outputs. -/
theorem map_unfold_derivations (p : Progress α) (outs : List Output) (n : Nat) :
    (p.derivations task outs n).map (Derivation.unfold p.arena) =
      (outs.filter fun o => o.isKept task).map fun o =>
        (o.application.over p.arena).tree task o.candidate := by
  induction outs generalizing n with
  | nil => rfl
  | cons o outs ih =>
    rw [derivations_cons, List.map_append, ih, List.filter_cons]
    split
    · rw [List.map_singleton, unfold_derive]
      rfl
    · rfl

/-- **The trees of what rules make**, one rule after the other. -/
theorem map_unfold_outputs (p : Progress α) (l : List Application) (n : Nat) :
    (p.derivations task (p.outputs task l) n).map (Derivation.unfold p.arena) =
      (l.map fun a => a.over p.arena).flatMap (Composition.trees task) := by
  rw [map_unfold_derivations, outputs, List.filter_flatMap, List.map_flatMap, List.flatMap_map]
  refine List.flatMap_congr fun a _ => ?_
  unfold outputsOf Composition.trees
  rw [results_over, List.filter_map, List.map_map]
  rfl

/-! ## Growing -/

/-- The tree of a derivation that was put in. -/
theorem Grown.unfold {ds : List (Derivation α)} (h : Grown p ds q)
    (hc : ∀ d ∈ ds, ∀ c ∈ d.children, c < p.arena.size) {k : Nat} {d : Derivation α} (hk : ds[k]? = some d) :
    q.arena.unfold (p.arena.size + k) = d.unfold p.arena := by
  have hbare := h.bare_get hk
  have hlabel : (q.arena.get (p.arena.size + k)).label = d.label := by
    have hl := congrArg Derivation.label hbare
    exact hl
  have hchildren : (q.arena.get (p.arena.size + k)).children = d.children := by
    have hc := congrArg Derivation.children hbare
    exact hc
  have hlt := hc d (List.mem_of_getElem? hk)
  rw [Arena.unfold_eq fun c hm => Nat.lt_of_lt_of_le (hlt c (hchildren ▸ hm)) (Nat.le_add_right _ _)]
  unfold Derivation.unfold
  rw [hlabel, hchildren]
  congr 1
  exact List.map_congr_left fun c hm => Arena.steady_unfold _ _ h.isPrefix c (hlt c hm)

/-- The trees of a cell. -/
def treesAt (p : Progress α) (first last : Nat) (cat : String) : List (DerivationTree α) :=
  p.cellOf Arena.unfold first last cat

/-- A category that a cell does not have has no trees there. -/
theorem treesAt_of_not_mem {f l : Nat} {c : String} (h : c ∉ p.chart.cats f l) : p.treesAt f l c = [] := by
  unfold treesAt cellOf
  rw [Chart.get_of_not_mem fun hk => h (by rwa [Chart.cats_eq]), List.map_nil]

/-- A cell with the same numbers has the same trees. -/
theorem treesAt_congr (hp : p.Bounded) (hbares : p.arena.bares <+: q.arena.bares) {f l : Nat} {c : String}
    (h : q.chart.get f l c = p.chart.get f l c) : q.treesAt f l c = p.treesAt f l c := by
  unfold treesAt cellOf
  rw [h]
  exact List.map_congr_left fun i hi => Arena.steady_unfold _ _ hbares i (hp f l c i hi)

/-- A cell has the trees that it had before, and then those of the new derivations that belong in it. -/
theorem Grown.treesAt {ds : List (Derivation α)} (h : Grown p ds q) (hp : p.Bounded)
    (hc : ∀ d ∈ ds, ∀ c ∈ d.children, c < p.arena.size) (f l : Nat) (c : String) :
    q.treesAt f l c =
      p.treesAt f l c ++ (ds.map (Derivation.unfold p.arena)).filter fun t => t.isAt f l c := by
  unfold Progress.treesAt
  rw [h.cellOf Arena.steady_unfold hp (fun k d hk => h.unfold hc hk), List.filter_map]
  rfl

/-- Applying rules puts in the derivations of their trees. -/
theorem grown_trees (hl : task.limit = none) {l : List Application} (hfit : ∀ a ∈ l, Application.Fits p a)
    (h : BottomUp.applyAll task p l = .ok q) :
    ∃ ds, Grown p ds q ∧ (∀ d ∈ ds, ∀ c ∈ d.children, c < p.arena.size) ∧
      ds.map (Derivation.unfold p.arena) = (l.map fun a => a.over p.arena).flatMap (Composition.trees task) := by
  obtain ⟨hg, -⟩ := BottomUp.grown_applyAll hl hfit h
  refine ⟨_, hg, fun d hd c hc => ?_, map_unfold_outputs p l p.made⟩
  obtain ⟨⟨o, n⟩, ho, rfl⟩ := List.mem_map.mp hd
  have hm := application_of_mem_outputs (List.fst_mem_of_mem_zipIdx (List.mem_filter.mp ho).1)
  rw [children_derive] at hc
  exact (hfit _ hm).children c hc

end Progress

end Parlance
