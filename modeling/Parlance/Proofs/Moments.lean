import Parlance.Parse.Parser
import Parlance.Proofs.Growth

/-!
# `Proofs.Moments` — every state that a parse goes through

What is true of a parse at its end need not be true on the way, and a parse that fails has no end. Here are the
states that a parse goes through, in order: whenever a derivation has been added, a cell has been cut, or an item
has been taken from the agenda, and up to the failure if there is one.

The moments of each function are listed in the manner of the function, from the state that it is given to the state
that it returns, both included.

## Contents
- **Loops.** `foldMoments`, the moments of a fold whose steps have moments themselves.
- **Bottom up.** `BottomUp.moments`.
- **Best first.** `BestFirst.moments`.
- **Parses.** `Parser.moments`, `Parser.arenas`; the result is the last moment (`Parser.mem_moments`).
-/

namespace Parlance

open Progress

variable {α : Type} [Score α] {ε σ π β : Type}

/-! ## Loops -/

/-- The moments after a computation, if it succeeds. -/
def andThen (x : Except ε σ) (moments : σ → List π) : List π :=
  match x with
  | .ok s => moments s
  | .error _ => []

theorem andThen_ok (s : σ) (moments : σ → List π) : andThen (.ok s : Except ε σ) moments = moments s := rfl

/-- What comes after a step is found only where the step succeeds. -/
theorem mem_andThen {x : Except ε σ} {moments : σ → List π} {q : π} :
    q ∈ andThen x moments ↔ ∃ s, x = .ok s ∧ q ∈ moments s := by
  cases x <;> simp [andThen]

/-- The moments of a fold. `inside` are those of one step, and `view` is what is seen of a state. -/
def foldMoments (step : σ → β → Except ε σ) (inside : σ → β → List π) (view : σ → π) :
    List β → σ → List π
  | [], s => [view s]
  | b :: rest, s => inside s b ++ andThen (step s b) (foldMoments step inside view rest)

section Folds

variable {step : σ → β → Except ε σ} {inside : σ → β → List π} {view : σ → π} {l : List β} {s t : σ}

/-- The last moment of a fold is its result. -/
theorem mem_foldMoments (h : l.foldlM step s = .ok t) : view t ∈ foldMoments step inside view l s := by
  induction l generalizing s with
  | nil =>
    rw [List.foldlM_nil] at h
    rw [Except.ok.inj h]
    exact List.mem_singleton_self _
  | cons b l ih =>
    rw [List.foldlM_cons, bind_eq_ok] at h
    obtain ⟨s', hs, h⟩ := h
    exact List.mem_append_right _ (mem_andThen.mpr ⟨s', hs, ih h⟩)

/-- **What every step keeps at all of its moments** a fold keeps at all of its own. -/
theorem forall_mem_foldMoments {P : π → Prop} (h0 : P (view s))
    (hinside : ∀ b ∈ l, ∀ s, P (view s) → ∀ q ∈ inside s b, P q)
    (hlast : ∀ b ∈ l, ∀ s t, step s b = .ok t → view t ∈ inside s b) :
    ∀ q ∈ foldMoments step inside view l s, P q := by
  induction l generalizing s with
  | nil =>
    intro q hq
    rw [List.mem_singleton.mp hq]
    exact h0
  | cons b l ih =>
    intro q hq
    have here := hinside b List.mem_cons_self s h0
    rcases List.mem_append.mp hq with hq | hq
    · exact here q hq
    · obtain ⟨t, ht, hq⟩ := mem_andThen.mp hq
      exact ih (here _ (hlast b List.mem_cons_self s t ht))
        (fun b hb => hinside b (List.mem_cons_of_mem _ hb))
        (fun b hb => hlast b (List.mem_cons_of_mem _ hb)) q hq

end Folds

/-- The result of a fold that cannot fail is the last of its moments. -/
theorem foldl_mem_scanl (f : σ → β → σ) (l : List β) (s : σ) : l.foldl f s ∈ l.scanl f s := by
  induction l generalizing s with
  | nil => simp
  | cons b l ih =>
    rw [List.scanl_cons, List.foldl_cons]
    exact List.mem_cons_of_mem _ (ih (f s b))

/-- **What every step keeps** holds at all moments of a fold that cannot fail. -/
theorem forall_mem_scanl {P : σ → Prop} {f : σ → β → σ} {l : List β} {s : σ} (h0 : P s)
    (hstep : ∀ b ∈ l, ∀ s, P s → P (f s b)) : ∀ t ∈ l.scanl f s, P t := by
  induction l generalizing s with
  | nil =>
    intro t ht
    obtain rfl : t = s := by simpa using ht
    exact h0
  | cons b l ih =>
    intro t ht
    rw [List.scanl_cons] at ht
    rcases List.mem_cons.mp ht with rfl | ht
    · exact h0
    · exact ih (hstep b List.mem_cons_self s h0) (fun b hb => hstep b (List.mem_cons_of_mem _ hb)) t ht

/-- The moments of a step that is taken at once. -/
def atOnce (step : σ → Except ε σ) (s : σ) : List σ := s :: andThen (step s) fun t => [t]

theorem mem_atOnce {step : σ → Except ε σ} {s t : σ} (h : step s = .ok t) : t ∈ atOnce step s :=
  List.mem_cons_of_mem _ (mem_andThen.mpr ⟨t, h, List.mem_singleton_self _⟩)

/-! ## Bottom up -/

namespace BottomUp

/-- The moments of adding results. -/
def resultMoments (task : Task α) (a : Application) :
    List (Except SemanticError Candidate) → Progress α → List (Progress α)
  | [], p => [p]
  | .error _ :: _, p => [p]
  | .ok candidate :: rest, p =>
    let q := p.record task ⟨a, candidate⟩
    p :: if q.limitReached task then [q] else resultMoments task a rest q

/-- The moments of applying a rule. -/
def applyMoments (task : Task α) (p : Progress α) (a : Application) : List (Progress α) :=
  if p.limitReached task then [p] else resultMoments task a (p.results task a).items p

/-- The moments of applying rules one after the other. -/
def applyAllMoments (task : Task α) (p : Progress α) (l : List Application) : List (Progress α) :=
  foldMoments (apply task) (applyMoments task) id l p

/-- The moments of applying a rule from one category to one category. -/
def unaryMoments (task : Task α) (first last : Nat) (state : Progress α × List String) (rule : Rule) :
    List (Progress α) :=
  if !task.canBuild rule first last then [state.1]
  else
    let cat := (rule.rhs.head?).getD ""
    let p := (pruneOnce first last state cat).1
    let l := (p.chart.get first last cat).map fun d =>
      ({ rule, first, last, children := [d] } : Application)
    state.1 :: applyAllMoments task p l

/-- The moments of cutting all cells of a span. -/
def cutMoments (first last : Nat) (state : Progress α × List String) : List (Progress α) :=
  ((state.1.chart.cats first last).scanl (pruneOnce first last) state).map Prod.fst

/-- The moments of building a span. -/
def spanMoments (task : Task α) (trie : Trie) (unaries : List Rule) (p : Progress α)
    (span : Nat × Nat) : List (Progress α) :=
  let (first, last) := span
  let parts := coverings task p.chart first last first trie []
  applyAllMoments task p parts ++ andThen (applyAll task p parts) fun p =>
    let whole := wholeSpan task p.chart first last trie
    applyAllMoments task p whole ++ andThen (applyAll task p whole) fun p =>
      foldMoments (applyUnary task first last) (unaryMoments task first last) Prod.fst unaries (p, []) ++
        andThen (unaries.foldlM (applyUnary task first last) (p, [])) (cutMoments first last)

/-- Puts the derivation of a token or a phrase into the chart. -/
def plant (task : Task α) (p : Progress α) (d : Derivation α) : Progress α :=
  (p.featurize task d).2.addToChart task (p.featurize task d).1

/-- The moments of putting in the tokens and phrases. -/
def seedMoments (task : Task α) : List (Progress α) :=
  (terminalDerivations task).scanl (plant task) (startWithTerminals task)

/-- **The moments of a bottom-up parse.** -/
def moments (task : Task α) (trie : Trie) (unaries : List Rule) : List (Progress α) :=
  seedMoments task ++
    foldMoments (buildSpan task trie unaries) (spanMoments task trie unaries) id
      (spansByLength task.length) (seed task)

variable {task : Task α} {first last : Nat} {p q : Progress α}

/-- What the results of a rule come to is among the moments. -/
theorem mem_resultMoments {a : Application} {items : List (Except SemanticError Candidate)}
    (h : addResults task a items p = .ok q) : q ∈ resultMoments task a items p := by
  induction items generalizing p with
  | nil =>
    rw [Except.ok.inj h]
    exact List.mem_singleton_self _
  | cons item rest ih =>
    cases item with
    | error e => cases h
    | ok candidate =>
      rw [addResults_ok] at h
      refine List.mem_cons_of_mem _ ?_
      split at h
      case isTrue hlim =>
        rw [if_pos hlim, Except.ok.inj h]
        exact List.mem_singleton_self _
      case isFalse hlim =>
        rw [if_neg hlim]
        exact ih h

theorem mem_applyMoments {a : Application} (h : apply task p a = .ok q) : q ∈ applyMoments task p a := by
  unfold apply at h
  unfold applyMoments
  split at h
  case isTrue hlim =>
    rw [if_pos hlim, Except.ok.inj h]
    exact List.mem_singleton_self _
  case isFalse hlim =>
    rw [if_neg hlim]
    exact mem_resultMoments h

theorem mem_applyAllMoments {l : List Application} (h : applyAll task p l = .ok q) :
    q ∈ applyAllMoments task p l := mem_foldMoments h

theorem mem_unaryMoments {state state' : Progress α × List String} {rule : Rule}
    (h : applyUnary task first last state rule = .ok state') :
    state'.1 ∈ unaryMoments task first last state rule := by
  unfold applyUnary at h
  unfold unaryMoments
  split at h
  case isTrue hb =>
    rw [if_pos hb, Except.ok.inj h]
    exact List.mem_singleton_self _
  case isFalse hb =>
    rw [if_neg hb]
    obtain ⟨q, hq, h⟩ := bind_eq_ok.mp h
    obtain rfl := Except.ok.inj h
    exact List.mem_cons_of_mem _ (mem_applyAllMoments hq)

theorem mem_cutMoments (state : Progress α × List String) :
    ((state.1.chart.cats first last).foldl (pruneOnce first last) state).1 ∈ cutMoments first last state :=
  List.mem_map_of_mem (foldl_mem_scanl _ _ _)

/-- What a span comes to is among its moments. -/
theorem mem_spanMoments {trie : Trie} {unaries : List Rule} {span : Nat × Nat}
    (h : buildSpan task trie unaries p span = .ok q) : q ∈ spanMoments task trie unaries p span := by
  obtain ⟨first, last⟩ := span
  obtain ⟨p₁, p₂, state, h₁, h₂, h₃, rfl⟩ := buildSpan_steps_iff.mp h
  refine List.mem_append_right _ (mem_andThen.mpr ⟨p₁, h₁, ?_⟩)
  refine List.mem_append_right _ (mem_andThen.mpr ⟨p₂, h₂, ?_⟩)
  exact List.mem_append_right _ (mem_andThen.mpr ⟨state, h₃, mem_cutMoments state⟩)

/-- What the search from short spans to long ones comes to is among its moments. -/
theorem mem_moments {trie : Trie} {unaries : List Rule} (h : run task trie unaries = .ok q) :
    q ∈ moments task trie unaries := by
  have hlast : id q ∈ foldMoments (buildSpan task trie unaries) (spanMoments task trie unaries) id
      (spansByLength task.length) (seed task) := mem_foldMoments h
  exact List.mem_append_right _ hlast

end BottomUp

/-! ## Best first -/

namespace BestFirst

variable (options : Options α) (index : SiblingIndex) (task : Task α)

/-- The moments of applying rules and putting them on the agenda. -/
def pushMoments (l : List Application) (s : Search α) : List (Search α) :=
  foldMoments (pushApplication options task) (fun s a => atOnce (pushApplication options task · a) s) id l s

/-- The moments of a step. -/
def stepMoments (item : Pending α) (s : Search α) : List (Search α) :=
  let (added, progress) := s.progress.addToBoundedChart item.next
  let t := { s with progress }
  let again := atOnce (push options task · item.application item.rest)
  s ::
    match added with
    | some i =>
      let found := combinations index task progress i
      pushMoments options task found t ++ andThen (found.foldlM (pushApplication options task) t) again
    | none => again t

/-- The moments of at most `fuel` steps. -/
def searchMoments : Nat → Search α → List (Search α)
  | 0, s => [s]
  | fuel + 1, s =>
    s ::
      if !continues task s then []
      else
        match pop? options s with
        | none => []
        | some (item, t) =>
          stepMoments options index task item t ++ andThen (step options index task item t) fun t =>
            if t.progress.limitReached task then [t] else searchMoments fuel t

/-- The moments of putting on the tokens, the phrases, and the rules that rewrite to tokens. -/
def seedMoments : List (Search α) :=
  let none : Application := { rule := .null, first := 0, last := 0, children := [] }
  let wait (s : Search α) (d : Derivation α) := pushDerivation task s none d .empty
  (terminalDerivations task).scanl wait (start options task) ++
    pushMoments options task (literalApplications index task)
      ((terminalDerivations task).foldl wait (start options task))

/-- **The moments of a best-first parse** of at most `fuel` steps. -/
def moments (fuel : Nat) : List (Progress α) :=
  (seedMoments options index task ++
    andThen (seed options index task) (searchMoments options index task fuel)).map Search.progress ++
    andThen (run options index task fuel) fun p => [p]

variable {options index task} {s t : Search α}

theorem mem_stepMoments {item : Pending α} (h : step options index task item s = .ok t) :
    t ∈ stepMoments options index task item s := by
  unfold step at h
  unfold stepMoments
  cases hadd : s.progress.addToBoundedChart item.next with
  | mk added progress =>
    rw [hadd] at h
    refine List.mem_cons_of_mem _ ?_
    cases added with
    | none => exact mem_atOnce h
    | some i =>
      obtain ⟨u, hu, hlast⟩ := bind_eq_ok.mp h
      exact List.mem_append_right _ (mem_andThen.mpr ⟨u, hu, mem_atOnce hlast⟩)

/-- What the search comes to that takes the best derivations first is among its moments. -/
theorem mem_searchMoments {fuel : Nat} (h : search options index task fuel s = .ok t) :
    t ∈ searchMoments options index task fuel s := by
  induction fuel generalizing s with
  | zero => cases h
  | succ fuel ih =>
    unfold search at h
    unfold searchMoments
    split at h
    case isTrue hc =>
      rw [Except.ok.inj h]
      exact List.mem_cons_self
    case isFalse hc =>
      rw [if_neg hc]
      cases hpop : pop? options s with
      | none =>
        rw [hpop] at h
        rw [Except.ok.inj h]
        exact List.mem_cons_self
      | some taken =>
        obtain ⟨item, u⟩ := taken
        rw [hpop] at h
        obtain ⟨v, hv, h⟩ := bind_eq_ok.mp h
        refine List.mem_cons_of_mem _ (List.mem_append_right _ (mem_andThen.mpr ⟨v, hv, ?_⟩))
        split at h
        case isTrue hlim =>
          rw [if_pos hlim, Except.ok.inj h]
          exact List.mem_singleton_self _
        case isFalse hlim =>
          rw [if_neg hlim]
          exact ih h

end BestFirst

/-! ## Parses -/

namespace Parser

/-- **The moments of a parse.** -/
def moments (parser : Parser α) (weights : Weights α) (ex : Example) : List (Progress α) :=
  let task := parser.task weights ex
  match parser.options.kind with
  | .bottomUp => BottomUp.moments task parser.trie parser.unaries
  | .bestFirst options => BestFirst.moments options parser.siblings task parser.options.steps

/-- The result of a parse is its last moment. -/
theorem mem_moments {parser : Parser α} {weights : Weights α} {ex : Example} {p : Progress α}
    (h : parser.infer weights ex = .ok p) : p ∈ parser.moments weights ex := by
  unfold infer at h
  unfold moments
  cases hk : parser.options.kind with
  | bottomUp =>
    rw [hk] at h
    exact BottomUp.mem_moments h
  | bestFirst options =>
    rw [hk] at h
    exact List.mem_append_right _ (mem_andThen.mpr ⟨p, h, List.mem_singleton_self _⟩)

/-- **The arenas that parsing an example goes through**, the one with the executed predictions included. -/
def arenas (parser : Parser α) (weights : Weights α) (ex : Example) (learning : Bool) : List (Arena α) :=
  (parser.moments weights ex).map Progress.arena ++
    andThen (parser.parse weights ex learning) fun r => [r.arena]

end Parser

end Parlance
