import Parlance.Proofs.TreeSort

/-!
# `Proofs.RuleLocal` — scores that go by rule and span

The score of a derivation is the sum of what its own features add and of the scores of its children. If what the
features add does not depend on which derivations of the same cells a rule is given, then better children make better
parents. So the walk through the trie can leave out derivations that are beaten often enough: what it finds is trimmed
by that, and nothing that counts is lost.

## Contents
- **Compositions.** `localScores`, `RuleLocal`, and `exists_beats`: better children make better parents.
- **Walking.** `treeCoverings`, the walk through the trie over cells of trees.
- **Trimming.** `trimmed_treeCoverings`.
-/

namespace Parlance

open Progress

variable {α : Type} [Score α]

/-! ## Compositions -/

/-- Features with those that fire for a rule. -/
def Rule.addFeatures (r : Rule) (features : Features α) : Features α :=
  if r.isNull then features else (features.add "rule" "fire" Score.one).add "rule" r.text Score.one

namespace Composition

/-- What the features of a result add to the scores of the children. -/
def localScore (task : Task α) (c : Composition α) (candidate : Candidate) : α :=
  task.weights.dot (c.featuresOf task candidate)

/-- What all results add, one by one. -/
def offeredScores (task : Task α) (c : Composition α) : List α :=
  ((c.results task).items.filterMap Except.toOption).map (c.localScore task)

/-- What the results that are kept add, one by one. -/
def localScores (task : Task α) (c : Composition α) : List α :=
  (((c.results task).items.filterMap Except.toOption).filter (keeps task)).map (c.localScore task)

/-- **Compositions that score by rule and span.** Where a rule is applied over a span to derivations of the same cells,
as many results are kept, and these add the same numbers. -/
structure RuleLocal (task : Task α) (l : List (Composition α)) : Prop where
  numbers : ∀ c ∈ l, ∀ s ∈ c.localScores task, Score.IsNumber s
  same : ∀ c ∈ l, ∀ c' ∈ l, c.rule = c'.rule → c.first = c'.first → c.last = c'.last →
    List.Forall₂ (fun t u => t.sameCell u = true) c.children c'.children → c.localScores task = c'.localScores task

theorem RuleLocal.subset {task : Task α} {l l' : List (Composition α)} (h : RuleLocal task l) (hsub : l' ⊆ l) :
    RuleLocal task l' where
  numbers c hc := h.numbers c (hsub hc)
  same c hc c' hc' := h.same c (hsub hc) c' (hsub hc')

/-- Scores go by rule and span if there is a weight for each rule, span and number of a result. -/
theorem RuleLocal.of_weights {task : Task α} {l : List (Composition α)} (weight : Rule → Nat → Nat → List α)
    (h : ∀ c ∈ l, c.localScores task = weight c.rule c.first c.last)
    (hnumbers : ∀ c ∈ l, ∀ s ∈ weight c.rule c.first c.last, Score.IsNumber s) : RuleLocal task l where
  numbers c hc := by
    rw [h c hc]
    exact hnumbers c hc
  same c hc c' hc' hrule hfirst hlast _ := by
    rw [h c hc, h c' hc', hrule, hfirst, hlast]

/-- With the features for rules, what a result adds goes by the rule and by its own features. -/
theorem localScore_rules {task : Task α} (hrules : task.extractor = .rules) (c : Composition α)
    (candidate : Candidate) :
    c.localScore task candidate = task.weights.dot (c.rule.addFeatures (candidate.features.convert Score.ofFloat)) := by
  unfold localScore featuresOf
  rw [hrules]
  rfl

/-- The sum of the scores of the children. -/
def childrenScore (c : Composition α) : α := Score.sum (c.children.map fun t => t.label.score)

variable [Score.Exact α] {task : Task α} {c c' : Composition α}

/-- **The score of a result.** -/
theorem score_tree (task : Task α) (c : Composition α) (candidate : Candidate) :
    (c.tree task candidate).label.score = c.localScore task candidate + c.childrenScore := by
  have hunscored : (Derivation.ofCandidate c.rule c.call [] candidate 0 : Derivation α).isScored = false := by
    show (!Score.isNaN (Score.nan : α)) = false
    rw [Score.Exact.isNaN_nan]
    rfl
  show (c.labelOf task candidate).score = _
  unfold labelOf
  dsimp only
  rw [hunscored, if_neg Bool.false_ne_true]
  rfl

omit [Score.Exact α] in
theorem exists_candidate {t : DerivationTree α} (h : t ∈ c.trees task) :
    ∃ candidate, t = c.tree task candidate ∧ c.localScore task candidate ∈ c.localScores task := by
  obtain ⟨candidate, hkept, rfl⟩ := List.mem_map.mp h
  exact ⟨candidate, rfl, List.mem_map_of_mem hkept⟩

theorem isNumber_childrenScore (h : ∀ t ∈ c.children, t.IsNumber) : Score.IsNumber c.childrenScore := by
  refine Score.isNumber_sum fun a ha => ?_
  obtain ⟨t, ht, rfl⟩ := List.mem_map.mp ha
  exact h t ht

/-- What is made of scored derivations is scored. -/
theorem isNumber_of_mem_trees (hlocal : ∀ s ∈ c.localScores task, Score.IsNumber s)
    (hchildren : ∀ t ∈ c.children, t.IsNumber) {t : DerivationTree α} (ht : t ∈ c.trees task) : t.IsNumber := by
  obtain ⟨candidate, rfl, hscore⟩ := exists_candidate ht
  show Score.IsNumber (c.tree task candidate).label.score
  rw [score_tree]
  exact (hlocal _ hscore).add (isNumber_childrenScore hchildren)

/-- **Better children make better parents.** -/
theorem exists_beats {u : DerivationTree α} (hu : u ∈ c'.trees task) (hrule : c.rule = c'.rule)
    (hfirst : c.first = c'.first) (hlast : c.last = c'.last) (hsame : c.localScores task = c'.localScores task)
    (hlocal : ∀ s ∈ c'.localScores task, Score.IsNumber s) (hnumbers : ∀ t ∈ c.children, t.IsNumber)
    (hnumbers' : ∀ t ∈ c'.children, t.IsNumber)
    (hbetter : List.Forall₂ (fun t u => t.trails u = false) c.children c'.children) :
    ∃ t ∈ c.trees task, t.beats u = true := by
  obtain ⟨candidate', rfl, hscore⟩ := exists_candidate hu
  -- a result of the better children that adds the same
  have hscore' := hscore
  rw [← hsame] at hscore'
  obtain ⟨candidate, hkept, heq⟩ := List.mem_map.mp hscore'
  refine ⟨c.tree task candidate, List.mem_map_of_mem hkept, DerivationTree.beats_of_not_trails ?_ ?_⟩
  · obtain ⟨hcat, hf, hl⟩ := c.label_ofCandidate task candidate
    obtain ⟨hcat', hf', hl'⟩ := c'.label_ofCandidate task candidate'
    refine DerivationTree.sameCell_iff.mpr ⟨?_, ?_, ?_⟩
    · exact hf.trans (hfirst.trans hf'.symm)
    · exact hl.trans (hlast.trans hl'.symm)
    · exact hcat.trans ((congrArg Rule.lhs hrule).trans hcat'.symm)
  · have hsum : Score.NoLess c.childrenScore c'.childrenScore := by
      refine Score.noLess_sum (List.forall_mem_map.mpr hnumbers) (List.forall_mem_map.mpr hnumbers') ?_
      rw [List.forall₂_map_left_iff, List.forall₂_map_right_iff]
      exact hbetter
    have hlocal' := hlocal _ hscore
    show Score.lt (c.tree task candidate).label.score (c'.tree task candidate').label.score = false
    rw [score_tree, score_tree, heq]
    exact Score.NoLess.add hlocal' hlocal' (isNumber_childrenScore hnumbers) (isNumber_childrenScore hnumbers')
      (.refl _) hsum

end Composition

/-! ## Walking -/

/-- **The walk through the trie over cells of trees**: the ways to cover a span from position `i` on, along the symbols
of a trie. `children` are the trees used so far. -/
def treeCoverings (task : Task α) (cats : Nat → Nat → List String)
    (cells : Nat → Nat → String → List (DerivationTree α)) (first last i : Nat) (trie : Trie)
    (children : List (DerivationTree α)) : List (Composition α) :=
  if !task.allowsAny trie.cats first last then []
  else if last ≤ i then
    (trie.rules.filter fun r => task.canBuild r.rule first last).map fun r => ⟨r.rule, first, last, children⟩
  else
    (match trie.next? (task.ex.token i) with
      | some next => treeCoverings task cats cells first last (i + 1) next children
      | none => []) ++
    (List.range (last - i)).flatMap fun k =>
      let j := i + k + 1
      if i = first ∧ j = last then []
      else
        (cats i j).flatMap fun cat =>
          match trie.next? cat with
          | some next =>
            (cells i j cat).flatMap fun t => treeCoverings task cats cells first last j next (children ++ [t])
          | none => []
termination_by last - i

section Walking

variable {task : Task α} {p : Progress α} {cats cats' : Nat → Nat → List String}
  {cells cells' : Nat → Nat → String → List (DerivationTree α)} {first last i : Nat} {trie : Trie}
  {children : List (DerivationTree α)} {c : Composition α}

omit [Score α] in
/-- Before the end of the span, a walk goes on with the next token or with a tree of a part. -/
theorem treeCoverings_inside (hallows : task.allowsAny trie.cats first last = true) (hend : ¬last ≤ i) :
    treeCoverings task cats cells first last i trie children =
      (match trie.next? (task.ex.token i) with
        | some next => treeCoverings task cats cells first last (i + 1) next children
        | none => []) ++
      (List.range (last - i)).flatMap fun k =>
        if i = first ∧ i + k + 1 = last then []
        else
          (cats i (i + k + 1)).flatMap fun cat =>
            match trie.next? cat with
            | some next => (cells i (i + k + 1) cat).flatMap fun t =>
              treeCoverings task cats cells first last (i + k + 1) next (children ++ [t])
            | none => [] := by
  have hallows : ¬(!task.allowsAny trie.cats first last) = true := by
    rw [hallows]
    exact Bool.false_ne_true
  rw [treeCoverings, if_neg hallows, if_neg hend]

omit [Score α] in
/-- At the end of the span, and where nothing can be built, cells make no difference. -/
theorem treeCoverings_outside (h : task.allowsAny trie.cats first last = false ∨ last ≤ i) :
    treeCoverings task cats cells first last i trie children =
      treeCoverings task cats' cells' first last i trie children := by
  rw [treeCoverings, treeCoverings]
  split
  case isTrue => rfl
  case isFalse hallows =>
    have hallows : task.allowsAny trie.cats first last = true := by simpa using hallows
    rw [hallows] at h
    have hend : last ≤ i := h.resolve_left Bool.noConfusion
    rw [if_pos hend, if_pos hend]

/-- **What a walk over a chart finds**, by its trees. -/
theorem map_over_coverings (task : Task α) (hd : p.chart.Distinct) (first last i : Nat) (trie : Trie)
    (children : List Nat) :
    (BottomUp.coverings task p.chart first last i trie children).map (fun a => a.over p.arena) =
      treeCoverings task p.chart.cats p.treesAt first last i trie (children.map p.arena.unfold) := by
  -- by induction on how much of the span is left, as in all that follows about walks
  induction hn : last - i using Nat.strongRecOn generalizing i trie children with
  | ind n ih =>
    rw [BottomUp.coverings, treeCoverings]
    split
    case isTrue => rfl
    case isFalse =>
      split
      case isTrue =>
        unfold BottomUp.endings
        rw [List.map_map]
        rfl
      case isFalse hend =>
        rw [List.map_append, List.map_flatMap]
        congr 1
        · cases trie.next? (task.ex.token i) with
          | none => rfl
          | some next => exact ih (last - (i + 1)) (by omega) (i + 1) next children rfl
        · refine List.flatMap_congr fun k hk => ?_
          rw [List.mem_range] at hk
          dsimp only
          split
          case isTrue => rfl
          case isFalse =>
            rw [Chart.entries_eq_map hd, List.flatMap_map, List.map_flatMap]
            refine List.flatMap_congr fun cat _ => ?_
            cases trie.next? cat with
            | none => rfl
            | some next =>
              unfold treesAt cellOf
              dsimp only
              rw [List.map_flatMap, List.flatMap_map]
              refine List.flatMap_congr fun d _ => ?_
              rw [ih (last - (i + k + 1)) (by omega) (i + k + 1) next (children ++ [d]) rfl, List.map_append]
              rfl

/-- Whether a span is a part of another one, but not all of it. -/
structure IsPart (first last i j : Nat) : Prop where
  le : first ≤ i
  lt : i < j
  le' : j ≤ last
  ne : ¬(i = first ∧ j = last)

omit [Score α] in
/-- **What a walk finds**, it finds where it ends, behind the next token, or behind a tree of a part. -/
theorem mem_treeCoverings (hi : first ≤ i) :
    c ∈ treeCoverings task cats cells first last i trie children ↔ task.allowsAny trie.cats first last = true ∧
      ((last ≤ i ∧ ∃ r ∈ trie.rules, task.canBuild r.rule first last = true ∧ c = ⟨r.rule, first, last, children⟩) ∨
      (i < last ∧ ∃ next, trie.next? (task.ex.token i) = some next ∧
        c ∈ treeCoverings task cats cells first last (i + 1) next children) ∨
      ∃ j cat next t, IsPart first last i j ∧ cat ∈ cats i j ∧ trie.next? cat = some next ∧ t ∈ cells i j cat ∧
        c ∈ treeCoverings task cats cells first last j next (children ++ [t])) := by
  cases hallows : task.allowsAny trie.cats first last with
  | false =>
    rw [treeCoverings, hallows]
    simp
  | true =>
    by_cases hend : last ≤ i
    case pos =>
      rw [treeCoverings, hallows, Bool.not_true, if_neg Bool.false_ne_true, if_pos hend]
      have hno : ∀ j, ¬IsPart first last i j := fun j h => by
        have := h.lt
        have := h.le'
        omega
      simp only [List.mem_map, List.mem_filter, and_assoc]
      constructor
      · rintro ⟨r, hr, hbuild, rfl⟩
        exact ⟨trivial, .inl ⟨hend, r, hr, hbuild, rfl⟩⟩
      · rintro ⟨-, ⟨-, r, hr, hbuild, rfl⟩ | ⟨hlt, -⟩ | ⟨j, -, -, -, hpart, -⟩⟩
        · exact ⟨r, hr, hbuild, rfl⟩
        · exact absurd hlt (by omega)
        · exact absurd hpart (hno j)
    case neg =>
      rw [treeCoverings_inside hallows hend, List.mem_append, List.mem_flatMap]
      constructor
      · rintro (h | ⟨k, hk, h⟩)
        · split at h
          case h_1 next hnext => exact ⟨rfl, .inr (.inl ⟨by omega, next, hnext, h⟩)⟩
          case h_2 => cases h
        · rw [List.mem_range] at hk
          split at h
          case isTrue => cases h
          case isFalse hwhole =>
            obtain ⟨cat, hcat, h⟩ := List.mem_flatMap.mp h
            split at h
            case h_1 next hnext =>
              obtain ⟨t, ht, h⟩ := List.mem_flatMap.mp h
              exact ⟨rfl, .inr (.inr ⟨_, cat, next, t, ⟨hi, by omega, by omega, hwhole⟩, hcat, hnext, ht, h⟩)⟩
            case h_2 => cases h
      · rintro ⟨-, ⟨hle, -⟩ | ⟨-, next, hnext, h⟩ | ⟨j, cat, next, t, hpart, hcat, hnext, ht, h⟩⟩
        · exact absurd hle hend
        · refine .inl ?_
          rw [hnext]
          exact h
        · obtain ⟨k, rfl⟩ : ∃ k, j = i + k + 1 := ⟨j - i - 1, by have := hpart.lt; omega⟩
          refine .inr ⟨k, List.mem_range.mpr (by have := hpart.le'; omega), ?_⟩
          rw [if_neg hpart.ne]
          refine List.mem_flatMap.mpr ⟨cat, hcat, ?_⟩
          rw [hnext]
          exact List.mem_flatMap.mpr ⟨t, ht, h⟩

omit [Score α] in
/-- What a walk finds keeps the trees used so far, and would be found behind others in their place. -/
theorem exists_rest (hi : first ≤ i) (h : c ∈ treeCoverings task cats cells first last i trie children) :
    c.first = first ∧ c.last = last ∧ ∃ rest, c.children = children ++ rest ∧
      (∀ t ∈ rest, ∃ i j cat, IsPart first last i j ∧ t ∈ cells i j cat) ∧
      ∀ others, ⟨c.rule, first, last, others ++ rest⟩ ∈ treeCoverings task cats cells first last i trie others := by
  induction hn : last - i using Nat.strongRecOn generalizing i trie children with
  | ind n ih =>
    obtain ⟨hallows, hcases⟩ := (mem_treeCoverings hi).mp h
    rcases hcases with ⟨hend, r, hr, hbuild, rfl⟩ | ⟨hlt, next, hnext, hc⟩ |
      ⟨j, cat, next, t, hpart, hcat, hnext, ht, hc⟩
    · refine ⟨rfl, rfl, [], (List.append_nil _).symm, fun t ht => absurd ht List.not_mem_nil, fun others => ?_⟩
      rw [List.append_nil]
      exact (mem_treeCoverings hi).mpr ⟨hallows, .inl ⟨hend, r, hr, hbuild, rfl⟩⟩
    · obtain ⟨hf, hl, rest, hrest, hcells, hothers⟩ := ih _ (by omega) (by omega) hc rfl
      refine ⟨hf, hl, rest, hrest, hcells, fun others => ?_⟩
      exact (mem_treeCoverings hi).mpr ⟨hallows, .inr (.inl ⟨hlt, next, hnext, hothers others⟩)⟩
    · have hij := hpart.lt
      have hj := hpart.le'
      obtain ⟨hf, hl, rest, hrest, hcells, hothers⟩ := ih _ (by omega) (by omega) hc rfl
      refine ⟨hf, hl, t :: rest, by rw [hrest, List.append_assoc]; rfl, fun u hu => ?_, fun others => ?_⟩
      · rcases List.mem_cons.mp hu with rfl | hu
        · exact ⟨i, j, cat, hpart, ht⟩
        · exact hcells u hu
      · have hfound := hothers (others ++ [t])
        rw [← List.append_cons] at hfound
        exact (mem_treeCoverings hi).mpr
          ⟨hallows, .inr (.inr ⟨j, cat, next, t, hpart, hcat, hnext, ht, hfound⟩)⟩

omit [Score α] in
/-- A walk over fewer trees finds less. -/
theorem treeCoverings_subset (hi : first ≤ i)
    (hcells : ∀ i j cat, IsPart first last i j → cells i j cat ⊆ cells' i j cat) :
    treeCoverings task cats cells first last i trie children ⊆
      treeCoverings task cats cells' first last i trie children := by
  induction hn : last - i using Nat.strongRecOn generalizing i trie children with
  | ind n ih =>
    intro c hc
    obtain ⟨hallows, hcases⟩ := (mem_treeCoverings hi).mp hc
    refine (mem_treeCoverings hi).mpr ⟨hallows, ?_⟩
    rcases hcases with hend | ⟨hlt, next, hnext, hc⟩ | ⟨j, cat, next, t, hpart, hcat, hnext, ht, hc⟩
    · exact .inl hend
    · exact .inr (.inl ⟨hlt, next, hnext, ih _ (by omega) (by omega) rfl hc⟩)
    · have hij := hpart.lt
      have hj := hpart.le'
      exact .inr (.inr ⟨j, cat, next, t, hpart, hcat, hnext, hcells i j cat hpart ht,
        ih _ (by omega) (by omega) rfl hc⟩)

omit [Score α] in
/-- A walk looks at the parts of its span only. -/
theorem treeCoverings_congr (hi : first ≤ i) (hcats : ∀ i j, IsPart first last i j → cats i j = cats' i j)
    (hcells : ∀ i j cat, IsPart first last i j → cells i j cat = cells' i j cat) :
    treeCoverings task cats cells first last i trie children =
      treeCoverings task cats' cells' first last i trie children := by
  induction hn : last - i using Nat.strongRecOn generalizing i trie children with
  | ind n ih =>
    by_cases hout : task.allowsAny trie.cats first last = false ∨ last ≤ i
    case pos => exact treeCoverings_outside hout
    case neg =>
      obtain ⟨hallows, hend⟩ := not_or.mp hout
      rw [Bool.not_eq_false] at hallows
      rw [treeCoverings_inside hallows hend, treeCoverings_inside hallows hend]
      congr 1
      · cases trie.next? (task.ex.token i) with
        | none => rfl
        | some next => exact ih (last - (i + 1)) (by omega) (by omega) rfl
      · refine List.flatMap_congr fun k hk => ?_
        rw [List.mem_range] at hk
        split
        case isTrue => rfl
        case isFalse hwhole =>
          have hpart : IsPart first last i (i + k + 1) := ⟨hi, by omega, by omega, hwhole⟩
          rw [hcats _ _ hpart]
          refine List.flatMap_congr fun cat _ => ?_
          cases trie.next? cat with
          | none => rfl
          | some next =>
            dsimp only
            rw [hcells _ _ _ hpart]
            exact List.flatMap_congr fun t _ => ih (last - (i + k + 1)) (by omega) (by omega) rfl

end Walking

/-! ## Trimming -/

section Trimming

variable [Score.Exact α] {task : Task α} {cats : Nat → Nat → List String} {k : Nat}
  {cells cells' : Nat → Nat → String → List (DerivationTree α)} {first last i j : Nat} {cat : String} {trie : Trie}
  {children : List (DerivationTree α)}

/-- **Cells that are sorted by score**, without any tree in a wrong place. -/
structure Ranked (cells : Nat → Nat → String → List (DerivationTree α)) (i j : Nat) (cat : String) : Prop where
  numbers : ∀ t ∈ cells i j cat, t.IsNumber
  place : ∀ t ∈ cells i j cat, t.isAt i j cat = true
  sorted : (cells i j cat).Pairwise fun t u => t.trails u = false

omit [Score α] [Score.Exact α] in
theorem sameCell_of_isAt {t u : DerivationTree α} (ht : t.isAt i j cat = true) (hu : u.isAt i j cat = true) :
    t.sameCell u = true := by
  unfold DerivationTree.isAt at ht hu
  simp only [Bool.and_eq_true, beq_iff_eq] at ht hu
  exact DerivationTree.sameCell_iff.mpr
    ⟨ht.1.1.trans hu.1.1.symm, ht.1.2.trans hu.1.2.symm, ht.2.trans hu.2.symm⟩

omit [Score α] [Score.Exact α] in
theorem sameCell_refl (t : DerivationTree α) : t.sameCell t = true :=
  DerivationTree.sameCell_iff.mpr ⟨rfl, rfl, rfl⟩

/-- What is found behind a tree is beaten by what is found behind a better one of the same cell. -/
theorem exists_beats_of_walk {l : List (Composition α)} (hi : first ≤ i) (hlocal : Composition.RuleLocal task l)
    (hcells : ∀ i j cat, IsPart first last i j → Ranked cells i j cat) (hchildren : ∀ t ∈ children, t.IsNumber)
    {t u : DerivationTree α} (ht : t.IsNumber) (hu : u.IsNumber) (hcell : t.sameCell u = true)
    (hbetter : t.trails u = false)
    (hsub : treeCoverings task cats cells first last i trie (children ++ [t]) ⊆ l)
    (hsub' : treeCoverings task cats cells first last i trie (children ++ [u]) ⊆ l) :
    ∀ b ∈ (treeCoverings task cats cells first last i trie (children ++ [u])).flatMap (Composition.trees task),
      ∃ a ∈ (treeCoverings task cats cells first last i trie (children ++ [t])).flatMap (Composition.trees task),
        a.beats b = true := by
  intro b hb
  obtain ⟨c', hc', hb⟩ := List.mem_flatMap.mp hb
  -- whatever the walk does behind the worse tree, it does behind the better one
  obtain ⟨hfirst, hlast, rest, hrest, hparts, hothers⟩ := exists_rest hi hc'
  have hc := hothers (children ++ [t])
  have hnumbers : ∀ v : DerivationTree α, v.IsNumber → ∀ w ∈ children ++ [v] ++ rest, w.IsNumber := by
    intro v hv w hw
    rcases List.mem_append.mp hw with hw | hw
    · rcases List.mem_append.mp hw with hw | hw
      · exact hchildren w hw
      · rwa [List.mem_singleton.mp hw]
    · obtain ⟨i, j, cat, hpart, hw⟩ := hparts w hw
      exact (hcells i j cat hpart).numbers w hw
  -- the children are the same but for one
  have hpairs : ∀ {R : DerivationTree α → DerivationTree α → Prop}, (∀ v, R v v) → R t u →
      List.Forall₂ R (children ++ [t] ++ rest) c'.children := by
    intro R hrefl hR
    rw [hrest]
    refine List.rel_append (List.rel_append ?_ (.cons hR .nil)) ?_
    · exact List.forall₂_same.mpr fun v _ => hrefl v
    · exact List.forall₂_same.mpr fun v _ => hrefl v
  have hsame := hlocal.same _ (hsub hc) c' (hsub' hc') rfl hfirst.symm hlast.symm
    (hpairs sameCell_refl hcell)
  obtain ⟨a, ha, hbeats⟩ := Composition.exists_beats (c := ⟨c'.rule, first, last, children ++ [t] ++ rest⟩) hb rfl
    hfirst.symm hlast.symm hsame (hlocal.numbers c' (hsub' hc')) (hnumbers t ht) (hrest ▸ hnumbers u hu)
    (hpairs (fun v => Score.NoLess.refl v.label.score) hbetter)
  exact ⟨a, List.mem_flatMap.mpr ⟨_, hc, ha⟩, hbeats⟩

/-- **A walk over the best trees of each cell** finds what a walk over all trees finds, but for what is beaten by `k`
earlier trees of the same cell. -/
theorem trimmed_treeCoverings (hi : first ≤ i)
    (hcells : ∀ i j cat, IsPart first last i j → Ranked cells' i j cat)
    (hbest : ∀ i j cat, IsPart first last i j → cells i j cat = (cells' i j cat).take k)
    (hchildren : ∀ t ∈ children, t.IsNumber)
    (hlocal : Composition.RuleLocal task (treeCoverings task cats cells' first last i trie children)) :
    Trimmed DerivationTree.beats k
      ((treeCoverings task cats cells first last i trie children).flatMap (Composition.trees task))
      ((treeCoverings task cats cells' first last i trie children).flatMap (Composition.trees task)) := by
  induction hn : last - i using Nat.strongRecOn generalizing i trie children with
  | ind n ih =>
    by_cases hout : task.allowsAny trie.cats first last = false ∨ last ≤ i
    case pos =>
      have hsame : treeCoverings task cats cells first last i trie children =
          treeCoverings task cats cells' first last i trie children := treeCoverings_outside hout
      rw [hsame]
      exact .refl _
    case neg =>
      obtain ⟨hallows, hend⟩ := not_or.mp hout
      rw [Bool.not_eq_false] at hallows
      have hmem : ∀ c, _ → c ∈ treeCoverings task cats cells' first last i trie children := fun c hc =>
        (mem_treeCoverings hi).mpr ⟨hallows, .inr hc⟩
      rw [treeCoverings_inside hallows hend, treeCoverings_inside hallows hend, List.flatMap_append,
        List.flatMap_append]
      refine .append ?_ ?_
      · cases hnext : trie.next? (task.ex.token i) with
        | none => exact .refl _
        | some next =>
          refine ih (last - (i + 1)) (by omega) (by omega) hchildren (hlocal.subset fun c hc => ?_) rfl
          exact hmem c (.inl ⟨by omega, next, hnext, hc⟩)
      · -- the next part of the span, its category, and then the trees of the cell
        rw [List.flatMap_assoc, List.flatMap_assoc]
        refine .flatMap fun m hm => ?_
        rw [List.mem_range] at hm
        split
        case isTrue => exact .refl _
        case isFalse hwhole =>
          have hpart : IsPart first last i (i + m + 1) := ⟨hi, by omega, by omega, hwhole⟩
          rw [List.flatMap_assoc, List.flatMap_assoc]
          refine .flatMap fun cat hcat => ?_
          cases hnext : trie.next? cat with
          | none => exact .refl _
          | some next =>
            dsimp only
            have hranked := hcells _ _ cat hpart
            have hsub : ∀ t ∈ cells' i (i + m + 1) cat,
                treeCoverings task cats cells' first last (i + m + 1) next (children ++ [t]) ⊆
                  treeCoverings task cats cells' first last i trie children := fun t ht c hc =>
              hmem c (.inr ⟨_, cat, next, t, hpart, hcat, hnext, ht, hc⟩)
            rw [List.flatMap_assoc, List.flatMap_assoc, hbest _ _ cat hpart]
            -- within a cell, trimming is what the induction says behind each tree, and leaving out the worst trees
            refine .flatMap_take (fun t ht => ?_) ?_
            · refine ih (last - (i + m + 1)) (by omega) (by omega) (fun u hu => ?_) (hlocal.subset (hsub t ht)) rfl
              rcases List.mem_append.mp hu with hu | hu
              · exact hchildren u hu
              · rw [List.mem_singleton.mp hu]
                exact hranked.numbers t ht
            · refine hranked.sorted.imp_of_mem fun {t u} ht hu hbetter => ?_
              exact exists_beats_of_walk (by omega) hlocal hcells hchildren (hranked.numbers t ht)
                (hranked.numbers u hu) (sameCell_of_isAt (hranked.place t ht) (hranked.place u hu)) hbetter
                (hsub t ht) (hsub u hu)

end Trimming

end Parlance
