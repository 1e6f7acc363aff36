import Parlance.Proofs.Pruning
import Parlance.Proofs.Numbering

/-!
# `Proofs.History` — what a bottom-up parse does, act by act

A bottom-up parse does three things only: it puts in a token or a phrase, it makes the derivation of a result, and it
cuts a cell. Here are the acts of a parse, in order, up to the failure if there is one. They are listed in the manner
of the functions that carry them out. Carried out one after the other they lead to the result of the parse, and each
moment of the parse is what some of them lead to.

What every act keeps is therefore true at every moment. An act may rely on what has been done before it: `Along`.

## Contents
- **Acts.** `Act`, `Act.carryOut`, `after`.
- **Histories.** `acts`, and the acts of each part of a parse.
- **Results.** `after_acts`: the acts lead to the result.
- **Moments.** `reaches_acts`: each moment is led to by the first acts.
- **Invariants.** `Along`, `Along.invariant`.
-/

namespace Parlance.BottomUp

open Progress

variable {α : Type} [Score α] {ε σ β κ : Type}

/-! ## Acts -/

/-- Something that a parse does. -/
inductive Act (α : Type) where
  /-- A token or a phrase is put in. -/
  | plant (d : Derivation α)
  /-- The derivation of a result is made and added to its cell. -/
  | add (o : Output)
  /-- A cell is sorted and cut down to the beam. -/
  | cut (cell : Nat × Nat × String)

/-- The cell that an act works on: its span and its category. -/
def Act.cell : Act α → Nat × Nat × String
  | plant d => (d.first, d.last, d.cat)
  | add o => (o.application.first, o.application.last, o.application.rule.lhs)
  | cut cell => cell

/-- The derivations that an act builds on. -/
def Act.children : Act α → List Nat
  | plant d => d.children
  | add o => o.application.children
  | cut _ => []

/-- The parse after a cell was cut. -/
def cutCell (p : Progress α) (first last : Nat) (cat : String) : Progress α :=
  { p with
    chart := (p.chart.prune p.arena first last cat).1
    arena := (p.chart.prune p.arena first last cat).2 }

/-- The parse after an act. -/
def Act.carryOut (task : Task α) (p : Progress α) : Act α → Progress α
  | plant d => BottomUp.plant task p d
  | add o => p.record task o
  | cut (first, last, cat) => cutCell p first last cat

/-- The parse after several acts. -/
def after (task : Task α) (p : Progress α) (acts : List (Act α)) : Progress α := acts.foldl (Act.carryOut task) p

theorem after_append (task : Task α) (p : Progress α) (acts more : List (Act α)) :
    after task p (acts ++ more) = after task (after task p acts) more := List.foldl_append

/-! ## Histories -/

/-- The acts of a fold. `inside` are those of one step. -/
def foldActs (step : σ → β → Except ε σ) (inside : σ → β → List κ) : List β → σ → List κ
  | [], _ => []
  | b :: rest, s => inside s b ++ andThen (step s b) (foldActs step inside rest)

/-- The acts of adding results. -/
def resultActs (task : Task α) (a : Application) :
    List (Except SemanticError Candidate) → Progress α → List (Act α)
  | [], _ => []
  | .error _ :: _, _ => []
  | .ok candidate :: rest, p =>
    let q := p.record task ⟨a, candidate⟩
    .add ⟨a, candidate⟩ :: if q.limitReached task then [] else resultActs task a rest q

/-- The acts of applying a rule. -/
def applyActs (task : Task α) (p : Progress α) (a : Application) : List (Act α) :=
  if p.limitReached task then [] else resultActs task a (p.results task a).items p

/-- The acts of applying rules one after the other. -/
def applyAllActs (task : Task α) (p : Progress α) (l : List Application) : List (Act α) :=
  foldActs (apply task) (applyActs task) l p

/-- The act of cutting a cell, unless that was done. -/
def pruneActs (first last : Nat) (pruned : List String) (cat : String) : List (Act α) :=
  if cat ∈ pruned then [] else [.cut (first, last, cat)]

/-- The acts of applying a rule from one category to one category. -/
def unaryActs (task : Task α) (first last : Nat) (state : Progress α × List String) (rule : Rule) :
    List (Act α) :=
  if !task.canBuild rule first last then []
  else
    let cat := (rule.rhs.head?).getD ""
    let p := (pruneOnce first last state cat).1
    let l := (p.chart.get first last cat).map fun d =>
      ({ rule, first, last, children := [d] } : Application)
    pruneActs first last state.2 cat ++ applyAllActs task p l

/-- The acts of cutting the cells of several categories over a span. -/
def cutActs (first last : Nat) : List String → Progress α × List String → List (Act α)
  | [], _ => []
  | cat :: rest, state =>
    pruneActs first last state.2 cat ++ cutActs first last rest (pruneOnce first last state cat)

/-- The acts of building a span. -/
def spanActs (task : Task α) (trie : Trie) (unaries : List Rule) (p : Progress α) (span : Nat × Nat) :
    List (Act α) :=
  let (first, last) := span
  let parts := coverings task p.chart first last first trie []
  applyAllActs task p parts ++ andThen (applyAll task p parts) fun p =>
    let whole := wholeSpan task p.chart first last trie
    applyAllActs task p whole ++ andThen (applyAll task p whole) fun p =>
      foldActs (applyUnary task first last) (unaryActs task first last) unaries (p, []) ++
        andThen (unaries.foldlM (applyUnary task first last) (p, [])) fun state =>
          cutActs first last (state.1.chart.cats first last) state

/-- **The acts of a bottom-up parse**, from `startWithTerminals` on. -/
def acts (task : Task α) (trie : Trie) (unaries : List Rule) : List (Act α) :=
  (terminalDerivations task).map .plant ++
    foldActs (buildSpan task trie unaries) (spanActs task trie unaries) (spansByLength task.length) (seed task)

/-! ## Results -/

section Results

variable {task : Task α} {first last : Nat} {p q : Progress α}

omit [Score α] in
/-- If the acts of each step lead to where the step leads, those of a fold lead to where the fold leads. -/
theorem foldl_foldActs {step : σ → β → Except ε σ} {inside : σ → β → List κ} {v : σ → Progress α}
    {carryOut : Progress α → κ → Progress α} {l : List β} {s t : σ}
    (hinside : ∀ s t b, step s b = .ok t → (inside s b).foldl carryOut (v s) = v t)
    (h : l.foldlM step s = .ok t) : (foldActs step inside l s).foldl carryOut (v s) = v t := by
  induction l generalizing s with
  | nil =>
    rw [List.foldlM_nil] at h
    rw [Except.ok.inj h]
    rfl
  | cons b l ih =>
    rw [List.foldlM_cons, bind_eq_ok] at h
    obtain ⟨s', hs, h⟩ := h
    rw [foldActs, List.foldl_append, hinside s s' b hs, hs]
    exact ih h

theorem resultActs_ok (task : Task α) (a : Application) (candidate : Candidate)
    (rest : List (Except SemanticError Candidate)) (p : Progress α) :
    resultActs task a (.ok candidate :: rest) p =
      [.add ⟨a, candidate⟩] ++ if (p.record task ⟨a, candidate⟩).limitReached task then []
        else resultActs task a rest (p.record task ⟨a, candidate⟩) := rfl

theorem after_resultActs {a : Application} {items : List (Except SemanticError Candidate)}
    (h : addResults task a items p = .ok q) : after task p (resultActs task a items p) = q := by
  induction items generalizing p with
  | nil => exact Except.ok.inj h
  | cons item rest ih =>
    cases item with
    | error e => cases h
    | ok candidate =>
      rw [addResults_ok] at h
      rw [resultActs_ok]
      split at h
      case isTrue hlim =>
        rw [if_pos hlim]
        exact Except.ok.inj h
      case isFalse hlim =>
        rw [if_neg hlim]
        exact ih h

theorem after_applyActs {a : Application} (h : apply task p a = .ok q) : after task p (applyActs task p a) = q := by
  unfold apply at h
  unfold applyActs
  split at h
  case isTrue hlim =>
    rw [if_pos hlim]
    exact Except.ok.inj h
  case isFalse hlim =>
    rw [if_neg hlim]
    exact after_resultActs h

theorem after_applyAllActs {l : List Application} (h : applyAll task p l = .ok q) :
    after task p (applyAllActs task p l) = q :=
  foldl_foldActs (v := id) (fun _ _ _ => after_applyActs) h

theorem after_pruneActs (task : Task α) (p : Progress α) (pruned : List String) (cat : String) :
    after task p (pruneActs first last pruned cat) = (pruneOnce first last (p, pruned) cat).1 := by
  unfold pruneActs
  by_cases h : cat ∈ pruned
  case pos =>
    rw [if_pos h, pruneOnce_of_mem h]
    rfl
  case neg =>
    rw [if_neg h, pruneOnce_of_not_mem h]
    rfl

theorem after_unaryActs {state state' : Progress α × List String} {rule : Rule}
    (h : applyUnary task first last state rule = .ok state') :
    after task state.1 (unaryActs task first last state rule) = state'.1 := by
  unfold applyUnary at h
  unfold unaryActs
  split at h
  case isTrue hb =>
    rw [if_pos hb, ← Except.ok.inj h]
    rfl
  case isFalse hb =>
    rw [if_neg hb]
    obtain ⟨q, hq, h⟩ := bind_eq_ok.mp h
    obtain rfl := Except.ok.inj h
    obtain ⟨p, pruned⟩ := state
    rw [after_append, after_pruneActs]
    exact after_applyAllActs hq

theorem after_cutActs (task : Task α) (cats : List String) (state : Progress α × List String) :
    after task state.1 (cutActs first last cats state) = (cats.foldl (pruneOnce first last) state).1 := by
  induction cats generalizing state with
  | nil => rfl
  | cons cat rest ih =>
    obtain ⟨p, pruned⟩ := state
    rw [cutActs, after_append, after_pruneActs, List.foldl_cons]
    exact ih (pruneOnce first last (p, pruned) cat)

/-- Applying all rules from one category to one category. -/
theorem after_unaries {unaries : List Rule} {state state' : Progress α × List String}
    (h : unaries.foldlM (applyUnary task first last) state = .ok state') :
    after task state.1 (foldActs (applyUnary task first last) (unaryActs task first last) unaries state) = state'.1 :=
  foldl_foldActs (v := Prod.fst) (fun _ _ _ => after_unaryActs) h

/-- The acts of building a span, if each of its steps succeeds. -/
theorem spanActs_eq {trie : Trie} {unaries : List Rule} {p₁ p₂ : Progress α} {state : Progress α × List String}
    (h₁ : applyAll task p (coverings task p.chart first last first trie []) = .ok p₁)
    (h₂ : applyAll task p₁ (wholeSpan task p₁.chart first last trie) = .ok p₂)
    (h₃ : unaries.foldlM (applyUnary task first last) (p₂, []) = .ok state) :
    spanActs task trie unaries p (first, last) =
      applyAllActs task p (coverings task p.chart first last first trie []) ++
        (applyAllActs task p₁ (wholeSpan task p₁.chart first last trie) ++
          (foldActs (applyUnary task first last) (unaryActs task first last) unaries (p₂, []) ++
            cutActs first last (state.1.chart.cats first last) state)) := by
  unfold spanActs
  dsimp only
  rw [h₁, andThen_ok, h₂, andThen_ok, h₃, andThen_ok]

theorem after_spanActs {trie : Trie} {unaries : List Rule} {span : Nat × Nat}
    (h : buildSpan task trie unaries p span = .ok q) : after task p (spanActs task trie unaries p span) = q := by
  obtain ⟨first, last⟩ := span
  obtain ⟨p₁, p₂, state, h₁, h₂, h₃, rfl⟩ := buildSpan_steps_iff.mp h
  rw [spanActs_eq h₁ h₂ h₃, after_append, after_append, after_append, after_applyAllActs h₁, after_applyAllActs h₂,
    after_unaries h₃]
  exact after_cutActs task _ state

theorem after_map_plant (task : Task α) (p : Progress α) (l : List (Derivation α)) :
    after task p (l.map .plant) = l.foldl (plant task) p := by
  unfold after
  rw [List.foldl_map]
  rfl

/-- **The acts of a parse lead to its result.** -/
theorem after_acts {trie : Trie} {unaries : List Rule} (h : run task trie unaries = .ok q) :
    after task (startWithTerminals task) (acts task trie unaries) = q := by
  unfold acts
  rw [after_append, after_map_plant]
  exact foldl_foldActs (v := id) (fun _ _ _ => after_spanActs) h

end Results

/-! ## Moments -/

/-- Whether a parse is what the first ones of several acts lead to. -/
def Reaches (task : Task α) (acts : List (Act α)) (p q : Progress α) : Prop :=
  ∃ done, done <+: acts ∧ q = after task p done

section Moments

variable {task : Task α} {first last : Nat} {p q : Progress α} {acts more : List (Act α)}

theorem Reaches.start (task : Task α) (acts : List (Act α)) (p : Progress α) : Reaches task acts p p :=
  ⟨[], List.nil_prefix, rfl⟩

theorem Reaches.left (more : List (Act α)) (h : Reaches task acts p q) : Reaches task (acts ++ more) p q := by
  obtain ⟨done, hdone, rfl⟩ := h
  exact ⟨done, hdone.trans (List.prefix_append _ _), rfl⟩

theorem Reaches.right (h : Reaches task more (after task p acts) q) : Reaches task (acts ++ more) p q := by
  obtain ⟨done, hdone, rfl⟩ := h
  exact ⟨acts ++ done, (List.prefix_append_right_inj acts).mpr hdone, (after_append task p acts done).symm⟩

/-- What comes after a computation that succeeds is led to by what it does, and then by what is done next. -/
theorem Reaches.andThen {x : Except ε σ} {next : σ → List (Act α)} {s : σ} {r : Progress α} (hx : x = .ok s)
    (hafter : after task p acts = r) (h : Reaches task (next s) r q) :
    Reaches task (acts ++ Parlance.andThen x next) p q := by
  apply Reaches.right
  rw [hafter, hx]
  exact h

/-- If each moment of a step is led to by the step's acts, each moment of a fold is led to by the acts of the fold. -/
theorem reaches_foldActs {step : σ → β → Except ε σ} {inside : σ → β → List (Act α)}
    {moments : σ → β → List (Progress α)} {v : σ → Progress α} {l : List β} {s : σ}
    (hmoments : ∀ s b, ∀ q ∈ moments s b, Reaches task (inside s b) (v s) q)
    (hinside : ∀ s t b, step s b = .ok t → after task (v s) (inside s b) = v t)
    (hq : q ∈ foldMoments step moments v l s) : Reaches task (foldActs step inside l s) (v s) q := by
  induction l generalizing s with
  | nil =>
    rw [List.mem_singleton.mp hq]
    exact .start task _ _
  | cons b l ih =>
    unfold foldActs
    rcases List.mem_append.mp hq with hq | hq
    · exact (hmoments s b q hq).left _
    · obtain ⟨t, ht, hq⟩ := mem_andThen.mp hq
      exact .andThen ht (hinside s t b ht) (ih hq)

theorem reaches_resultActs {a : Application} {items : List (Except SemanticError Candidate)}
    (hq : q ∈ resultMoments task a items p) : Reaches task (resultActs task a items p) p q := by
  induction items generalizing p with
  | nil =>
    rw [List.mem_singleton.mp hq]
    exact .start task _ _
  | cons item rest ih =>
    cases item with
    | error e =>
      rw [List.mem_singleton.mp hq]
      exact .start task _ _
    | ok candidate =>
      rcases List.mem_cons.mp hq with rfl | hq
      · exact .start task _ _
      · rw [resultActs_ok]
        apply Reaches.right
        split at hq
        case isTrue hlim =>
          rw [if_pos hlim, List.mem_singleton.mp hq]
          exact .start task _ _
        case isFalse hlim =>
          rw [if_neg hlim]
          exact ih hq

theorem reaches_applyActs {a : Application} (hq : q ∈ applyMoments task p a) :
    Reaches task (applyActs task p a) p q := by
  unfold applyMoments at hq
  unfold applyActs
  split at hq
  case isTrue hlim =>
    rw [if_pos hlim, List.mem_singleton.mp hq]
    exact .start task _ _
  case isFalse hlim =>
    rw [if_neg hlim]
    exact reaches_resultActs hq

theorem reaches_applyAllActs {l : List Application} (hq : q ∈ applyAllMoments task p l) :
    Reaches task (applyAllActs task p l) p q :=
  reaches_foldActs (v := id) (fun _ _ _ => reaches_applyActs) (fun _ _ _ => after_applyActs) hq

theorem reaches_unaryActs {state : Progress α × List String} {rule : Rule}
    (hq : q ∈ unaryMoments task first last state rule) :
    Reaches task (unaryActs task first last state rule) state.1 q := by
  unfold unaryMoments at hq
  unfold unaryActs
  split at hq
  case isTrue hb =>
    rw [if_pos hb, List.mem_singleton.mp hq]
    exact .start task _ _
  case isFalse hb =>
    rw [if_neg hb]
    rcases List.mem_cons.mp hq with rfl | hq
    · exact .start task _ _
    · obtain ⟨p, pruned⟩ := state
      apply Reaches.right
      rw [after_pruneActs]
      exact reaches_applyAllActs hq

theorem reaches_cutActs {cats : List String} {state : Progress α × List String}
    (hq : q ∈ (cats.scanl (pruneOnce first last) state).map Prod.fst) :
    Reaches task (cutActs first last cats state) state.1 q := by
  induction cats generalizing state with
  | nil =>
    obtain rfl : q = state.1 := by simpa using hq
    exact .start task _ _
  | cons cat rest ih =>
    rw [List.scanl_cons, List.map_cons] at hq
    rcases List.mem_cons.mp hq with rfl | hq
    · exact .start task _ _
    · obtain ⟨p, pruned⟩ := state
      apply Reaches.right
      rw [after_pruneActs]
      exact ih hq

theorem reaches_spanActs {trie : Trie} {unaries : List Rule} {span : Nat × Nat}
    (hq : q ∈ spanMoments task trie unaries p span) : Reaches task (spanActs task trie unaries p span) p q := by
  obtain ⟨first, last⟩ := span
  unfold spanActs
  dsimp only
  rcases List.mem_append.mp hq with hq | hq
  · exact (reaches_applyAllActs hq).left _
  obtain ⟨p₁, h₁, hq⟩ := mem_andThen.mp hq
  refine .andThen h₁ (after_applyAllActs h₁) ?_
  rcases List.mem_append.mp hq with hq | hq
  · exact (reaches_applyAllActs hq).left _
  obtain ⟨p₂, h₂, hq⟩ := mem_andThen.mp hq
  refine .andThen h₂ (after_applyAllActs h₂) ?_
  rcases List.mem_append.mp hq with hq | hq
  · exact (reaches_foldActs (v := Prod.fst) (fun _ _ _ => reaches_unaryActs) (fun _ _ _ => after_unaryActs) hq).left _
  obtain ⟨state, h₃, hq⟩ := mem_andThen.mp hq
  exact .andThen h₃ (after_unaries h₃) (reaches_cutActs hq)

/-- **Each moment of a parse is what its first acts lead to.** -/
theorem reaches_acts {trie : Trie} {unaries : List Rule} (hq : q ∈ moments task trie unaries) :
    Reaches task (BottomUp.acts task trie unaries) (startWithTerminals task) q := by
  unfold BottomUp.acts
  rcases List.mem_append.mp hq with hq | hq
  · have hseed : ∀ (l : List (Derivation α)) (p : Progress α), q ∈ l.scanl (plant task) p →
        Reaches task (l.map .plant) p q := by
      intro l
      induction l with
      | nil =>
        intro p hq
        obtain rfl : q = p := by simpa using hq
        exact .start task _ _
      | cons d l ih =>
        intro p hq
        rw [List.scanl_cons] at hq
        rcases List.mem_cons.mp hq with rfl | hq
        · exact .start task _ _
        · have hrest : Reaches task (l.map .plant) (after task p [.plant d]) q := ih (plant task p d) hq
          exact hrest.right
    exact (hseed _ _ hq).left _
  · apply Reaches.right
    rw [after_map_plant]
    exact reaches_foldActs (v := id) (fun _ _ _ => reaches_spanActs) (fun _ _ _ => after_spanActs) hq

end Moments

/-! ## Invariants -/

/-- Whether something is true of every act, given what has been done before it and the parse that this has led to. -/
def Along (task : Task α) (ok : List (Act α) → Progress α → Act α → Prop) (done : List (Act α)) (p : Progress α) :
    List (Act α) → Prop
  | [] => True
  | a :: rest => ok done p a ∧ Along task ok (done ++ [a]) (a.carryOut task p) rest

section Invariants

variable {task : Task α} {p q : Progress α} {acts more done : List (Act α)}
  {ok : List (Act α) → Progress α → Act α → Prop}

theorem along_append : Along task ok done p (acts ++ more) ↔
    Along task ok done p acts ∧ Along task ok (done ++ acts) (after task p acts) more := by
  induction acts generalizing done p with
  | nil => simp [Along, after]
  | cons a acts ih =>
    rw [List.cons_append, Along, Along, ih, List.append_assoc, and_assoc]
    rfl

/-- Along what a computation does, and then along what is done next if it succeeds. -/
theorem along_andThen {x : Except ε σ} {next : σ → List (Act α)} {v : σ → Progress α}
    (hafter : ∀ s, x = .ok s → after task p acts = v s) (h : Along task ok done p acts)
    (hnext : ∀ s, x = .ok s → Along task ok (done ++ acts) (v s) (next s)) :
    Along task ok done p (acts ++ andThen x next) := by
  rw [along_append]
  refine ⟨h, ?_⟩
  cases hx : x with
  | error e => exact trivial
  | ok s =>
    rw [hafter s hx]
    exact hnext s hx

/-- What is true of every act is true of each of them. -/
theorem Along.of_split {a : Act α} (h : Along task ok done p (acts ++ a :: more)) :
    ok (done ++ acts) (after task p acts) a := (along_append.mp h).2.1

/-- **What the acts keep, if something is true of each of them**, is true after any first ones of them. -/
theorem Along.invariant {P : List (Act α) → Progress α → Prop} (h : Along task ok done p acts) (h0 : P done p)
    (hstep : ∀ done p a, ok done p a → P done p → P (done ++ [a]) (a.carryOut task p)) {first : List (Act α)}
    (hfirst : first <+: acts) : P (done ++ first) (after task p first) := by
  obtain ⟨rest, rfl⟩ := hfirst
  replace h := (along_append.mp h).1
  induction first generalizing done p with
  | nil =>
    rw [List.append_nil]
    exact h0
  | cons a first ih =>
    have hrest := ih (hstep done p a h.1 h0) h.2
    rwa [List.append_assoc] at hrest

/-- What every act keeps and makes true of the next one is true along the acts. -/
theorem along_of {R : List (Act α) → Progress α → Prop} (h0 : R done p)
    (hstep : ∀ a ∈ acts, ∀ done p, R done p → ok done p a ∧ R (done ++ [a]) (a.carryOut task p)) :
    Along task ok done p acts ∧ R (done ++ acts) (after task p acts) := by
  induction acts generalizing done p with
  | nil =>
    rw [List.append_nil]
    exact ⟨trivial, h0⟩
  | cons a acts ih =>
    obtain ⟨ha, h1⟩ := hstep a List.mem_cons_self done p h0
    obtain ⟨hrest, hlast⟩ := ih h1 fun b hb => hstep b (List.mem_cons_of_mem _ hb)
    rw [List.append_assoc] at hlast
    exact ⟨⟨ha, hrest⟩, hlast⟩

/-- **Along a fold**, of which `R behind done s` is true at every step. -/
theorem along_foldActs {step : σ → β → Except ε σ} {inside : σ → β → List (Act α)} {v : σ → Progress α}
    {R : List β → List (Act α) → σ → Prop} {l : List β} {s : σ} (h0 : R [] done s)
    (hview : ∀ s t b, step s b = .ok t → after task (v s) (inside s b) = v t)
    (hstep : ∀ behind b ahead done s, l = behind ++ b :: ahead → R behind done s →
      Along task ok done (v s) (inside s b) ∧
        ∀ t, step s b = .ok t → R (behind ++ [b]) (done ++ inside s b) t) :
    Along task ok done (v s) (foldActs step inside l s) ∧
      ∀ t, l.foldlM step s = .ok t → R l (done ++ foldActs step inside l s) t := by
  suffices h : ∀ ahead behind done s, l = behind ++ ahead → R behind done s →
      Along task ok done (v s) (foldActs step inside ahead s) ∧
        ∀ t, ahead.foldlM step s = .ok t → R l (done ++ foldActs step inside ahead s) t from h l [] done s rfl h0
  intro ahead
  induction ahead with
  | nil =>
    intro behind done s hl h
    rw [List.append_nil] at hl
    refine ⟨trivial, fun t ht => ?_⟩
    rw [List.foldlM_nil] at ht
    rw [foldActs, List.append_nil, hl, ← Except.ok.inj ht]
    exact h
  | cons b ahead ih =>
    intro behind done s hl h
    obtain ⟨hinside, hnext⟩ := hstep behind b ahead done s hl h
    have hrest := fun s' hs => ih (behind ++ [b]) (done ++ inside s b) s' (by rw [hl, List.append_cons]) (hnext s' hs)
    refine ⟨along_andThen (fun s' => hview s s' b) hinside fun s' hs => (hrest s' hs).1, fun t ht => ?_⟩
    rw [List.foldlM_cons, bind_eq_ok] at ht
    obtain ⟨s', hs, ht⟩ := ht
    rw [foldActs, hs, andThen_ok, ← List.append_assoc]
    exact (hrest s' hs).2 t ht

/-- **What every act keeps** is true at every moment. -/
theorem Reaches.invariant {P : Progress α → Prop} (h : Reaches task acts p q) (hp : P p)
    (hstep : ∀ a ∈ acts, ∀ p, P p → P (a.carryOut task p)) : P q := by
  obtain ⟨first, ⟨rest, rfl⟩, rfl⟩ := h
  have hkept : Along task (fun _ _ _ => True) [] p first ∧ P (after task p first) :=
    along_of (R := fun _ p => P p) hp fun a ha _ p hp => ⟨trivial, hstep a (List.mem_append_left _ ha) p hp⟩
  exact hkept.2

/-- Applying rules makes derivations by these rules only. -/
theorem exists_of_mem_applyAllActs {l : List Application} {act : Act α} (h : act ∈ applyAllActs task p l) :
    ∃ a ∈ l, ∃ candidate, act = .add ⟨a, candidate⟩ := by
  have hresult : ∀ (a : Application) (items : List (Except SemanticError Candidate)) (p : Progress α),
      act ∈ resultActs task a items p → ∃ candidate, act = .add ⟨a, candidate⟩ := by
    intro a items
    induction items with
    | nil =>
      intro p h
      cases h
    | cons item rest ih =>
      intro p h
      cases item with
      | error e => cases h
      | ok candidate =>
        rw [resultActs_ok] at h
        rcases List.mem_append.mp h with h | h
        · exact ⟨candidate, List.mem_singleton.mp h⟩
        · split at h
          · cases h
          · exact ih _ h
  unfold applyAllActs at h
  induction l generalizing p with
  | nil => cases h
  | cons a l ih =>
    rcases List.mem_append.mp h with h | h
    · unfold applyActs at h
      split at h
      · cases h
      · obtain ⟨candidate, he⟩ := hresult a _ p h
        exact ⟨a, List.mem_cons_self, candidate, he⟩
    · obtain ⟨q, -, h⟩ := mem_andThen.mp h
      obtain ⟨b, hb, hact⟩ := ih h
      exact ⟨b, List.mem_cons_of_mem _ hb, hact⟩

end Invariants

end Parlance.BottomUp
