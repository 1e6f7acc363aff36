import Mathlib.Data.List.Forall2
import Mathlib.Data.List.ReduceOption
import Parlance.Derivation.Basic

/-!
# `Proofs.Outcome` — what comes out when a category is derived through rules

A rule that was brought to two symbols is spread over several rules with fresh categories. To derive a category
through them is to rewrite it by one of these rules, to go on with the fresh categories of the right-hand side, and
to find a word or a derivation for each of the other symbols. What comes out is a list, because a semantic function
may have several results, or fail: every result that a part has is a child of the rule, and what goes wrong in a part
goes wrong in the whole.

## Contents
- **Fillers**: the words and children that stand for symbols.
- **Outcomes.** `onEach`, `Rule.results`, `Derives`.
- **Applications.** `Applied`, `Each`, and the left fold of a function, `LeftFold`.
-/

namespace Parlance

/-! ## Fillers -/

/-- What a semantic function is to make of children: a formula and its type. -/
abbrev Meaning := Formula × SemType

/-- What a child means. -/
def Child.meaning (c : Child) : Meaning := (c.formula, c.type)

/-- What a candidate means. -/
def Candidate.meaning (c : Candidate) : Meaning := (c.formula, c.type)

/-- What stands for a symbol: a word, which is no child of a rule, or a child. -/
inductive Filler where
  | word (symbol : String) (first last : Nat)
  | child (c : Child)

namespace Filler

/-- The symbol that a filler stands for. -/
def symbol : Filler → String
  | word s _ _ => s
  | child c => c.cat

/-- Where a filler starts. -/
def first : Filler → Nat
  | word _ first _ => first
  | child c => c.first

/-- Where a filler ends. -/
def last : Filler → Nat
  | word _ _ last => last
  | child c => c.last

/-- The child that a filler is. -/
def child? : Filler → Option Child
  | word _ _ _ => none
  | child c => some c

/-- **Words stand for literals**, and children for categories. -/
def Fits (f : Filler) : Prop := f.child?.isSome = isCat f.symbol

/-- Where the first of several fillers starts. -/
def start (fillers : List Filler) : Nat := (fillers.head?.map first).getD 0

/-- Where the last of several fillers ends. -/
def stop (fillers : List Filler) : Nat := (fillers.getLast?.map last).getD 0

/-- Where fillers start is where the first of them does. -/
theorem start_append {l : List Filler} (h : l ≠ []) (l' : List Filler) : start (l ++ l') = start l := by
  obtain ⟨f, rest, rfl⟩ := List.exists_cons_of_ne_nil h
  rfl

/-- Where fillers end is where the last of them does. -/
theorem stop_concat (l : List Filler) (f : Filler) : stop (l ++ [f]) = f.last := by
  unfold stop
  rw [List.getLast?_concat]
  rfl

/-- What fits a category is a child. -/
theorem Fits.exists_child {f : Filler} (h : f.Fits) (hc : isCat f.symbol = true) :
    ∃ c, f = child c := by
  cases f with
  | word s _ _ =>
    unfold Fits at h
    rw [hc] at h
    cases h
  | child c => exact ⟨c, rfl⟩

/-- What fits a symbol is one child, if that is a category, and none otherwise. -/
theorem Fits.length_child? {f : Filler} (h : f.Fits) :
    f.child?.toList.length = if isCat f.symbol then 1 else 0 := by
  unfold Fits at h
  rw [← h]
  cases f <;> rfl

end Filler

/-! ## Outcomes -/

/-- Results of a step, or errors. -/
abbrev Outcomes (α : Type) := List (Except SemanticError α)

variable {α β γ : Type}

/-- A step taken for each of several results; errors stay. -/
def onEach (outs : Outcomes α) (f : α → Outcomes β) : Outcomes β :=
  outs.flatMap fun
    | .ok a => f a
    | .error e => [.error e]

/-- Results seen through a function. -/
def mapOk (f : α → β) (outs : Outcomes α) : Outcomes β := outs.map (Except.map f)

@[simp] theorem mapOk_nil (f : α → β) : mapOk f [] = [] := rfl

@[simp] theorem mapOk_ok (f : α → β) (a : α) (outs : Outcomes α) :
    mapOk f (.ok a :: outs) = .ok (f a) :: mapOk f outs := rfl

@[simp] theorem mapOk_error (f : α → β) (e : SemanticError) (outs : Outcomes α) :
    mapOk f (.error e :: outs) = .error e :: mapOk f outs := rfl

@[simp] theorem onEach_nil (f : α → Outcomes β) : onEach [] f = [] := rfl

@[simp] theorem onEach_ok (a : α) (outs : Outcomes α) (f : α → Outcomes β) :
    onEach (.ok a :: outs) f = f a ++ onEach outs f := rfl

@[simp] theorem onEach_error (e : SemanticError) (outs : Outcomes α) (f : α → Outcomes β) :
    onEach (.error e :: outs) f = .error e :: onEach outs f := rfl

@[simp] theorem mapOk_id (outs : Outcomes α) : mapOk (fun a => a) outs = outs := by
  induction outs with
  | nil => rfl
  | cons out outs ih => cases out <;> simp [ih]

theorem mapOk_append (f : α → β) (outs outs' : Outcomes α) :
    mapOk f (outs ++ outs') = mapOk f outs ++ mapOk f outs' := List.map_append

/-- To see results through two functions is to see them through the second after the first. -/
theorem mapOk_mapOk (g : β → γ) (f : α → β) (outs : Outcomes α) :
    mapOk g (mapOk f outs) = mapOk (fun a => g (f a)) outs := by
  induction outs with
  | nil => rfl
  | cons out outs ih => cases out <;> simp [ih]

theorem mapOk_injective {f : α → β} (hf : Function.Injective f) : Function.Injective (mapOk f) := by
  refine List.map_injective_iff.mpr fun a b h => ?_
  cases a <;> cases b <;> simp_all [Except.map, hf.eq_iff]

/-- A step taken for each result, as seen through a function. -/
theorem onEach_mapOk (g : α → β) (f : β → Outcomes γ) (outs : Outcomes α) :
    onEach (mapOk g outs) f = onEach outs fun a => f (g a) := by
  induction outs with
  | nil => rfl
  | cons out outs ih => cases out <;> simp [ih]

/-- A step with one result each. -/
@[simp] theorem onEach_single (f : α → β) (outs : Outcomes α) :
    (onEach outs fun a => [.ok (f a)]) = mapOk f outs := by
  induction outs with
  | nil => rfl
  | cons out outs ih => cases out <;> simp [ih]

/-- What each result leads to, as seen through a function. -/
theorem mapOk_onEach (g : β → γ) (f : α → Outcomes β) (outs : Outcomes α) :
    mapOk g (onEach outs f) = onEach outs fun a => mapOk g (f a) := by
  induction outs with
  | nil => rfl
  | cons out outs ih => cases out <;> simp [ih, mapOk_append]

/-- Each result is seen through the function, and nothing else is. -/
theorem ok_mem_mapOk_iff {f : α → β} {outs : Outcomes α} {b : β} :
    .ok b ∈ mapOk f outs ↔ ∃ a, .ok a ∈ outs ∧ f a = b := by
  induction outs with
  | nil => simp
  | cons out outs ih => cases out <;> simp [ih, eq_comm]

/-- **What comes out of a step** taken for each of several results comes out of it for one of them. -/
theorem ok_mem_onEach_iff {f : α → Outcomes β} {outs : Outcomes α} {b : β} :
    .ok b ∈ onEach outs f ↔ ∃ a, .ok a ∈ outs ∧ .ok b ∈ f a := by
  induction outs with
  | nil => simp
  | cons out outs ih => cases out <;> simp [ih]

/-- The child that a rule makes of a candidate. -/
def Rule.child (r : Rule) (call : Call) (candidate : Candidate) : Child :=
  (Derivation.ofCandidate r call [] candidate 0 : Derivation Float).toChild

/-- What a rule makes of children, given all that it covers. -/
def Rule.results (r : Rule) (ctx : SemContext) (ex : Example) (leaves : List Filler)
    (children : List Child) : Outcomes Child :=
  let call : Call := ⟨Filler.start leaves, Filler.stop leaves, children⟩
  mapOk (r.child call) (r.sem.apply ctx ex call).items

/-- **Which symbols** have fillers, and which categories are derived. -/
structure Kinds where
  given : String → Prop
  fresh : String → Prop

/-- A symbol that has fillers and is not derived. -/
def Kinds.OnlyGiven (kinds : Kinds) (s : String) : Prop := kinds.given s ∧ ¬ kinds.fresh s

/-- A category that is derived and has no fillers. -/
def Kinds.OnlyFresh (kinds : Kinds) (s : String) : Prop := kinds.fresh s ∧ ¬ kinds.given s

mutual
/-- **What comes out for a category** by one way to derive it through rules from fillers. -/
inductive Derives (rules : List Rule) (kinds : Kinds) (ctx : SemContext) (ex : Example) :
    String → List Filler → Outcomes Child → Prop
  | rewrite {r : Rule} {leaves : List Filler} {outs : Outcomes (List Child)} :
      r ∈ rules → DerivesAll rules kinds ctx ex r.rhs leaves outs →
        Derives rules kinds ctx ex r.lhs leaves (onEach outs (r.results ctx ex leaves))
/-- What comes out for symbols, each of which is derived or has a filler. -/
inductive DerivesAll (rules : List Rule) (kinds : Kinds) (ctx : SemContext) (ex : Example) :
    List String → List Filler → Outcomes (List Child) → Prop
  | nil : DerivesAll rules kinds ctx ex [] [] [.ok []]
  | expand {s : String} {rest : List String} {leaves leaves' : List Filler} {outs : Outcomes Child}
      {outs' : Outcomes (List Child)} :
      kinds.fresh s → Derives rules kinds ctx ex s leaves outs →
        DerivesAll rules kinds ctx ex rest leaves' outs' →
        DerivesAll rules kinds ctx ex (s :: rest) (leaves ++ leaves')
          (onEach outs fun c => mapOk (c :: ·) outs')
  | stay {f : Filler} {rest : List String} {leaves : List Filler} {outs : Outcomes (List Child)} :
      kinds.given f.symbol → f.Fits → DerivesAll rules kinds ctx ex rest leaves outs →
        DerivesAll rules kinds ctx ex (f.symbol :: rest) (f :: leaves) (mapOk (f.child?.toList ++ ·) outs)
end

variable {rules : List Rule} {kinds : Kinds} {ctx : SemContext} {ex : Example}

/-- **A category is derived** by one rule for it, and each result for the right-hand side is given to that rule. -/
theorem derives_iff {s : String} {leaves : List Filler} {outs : Outcomes Child} :
    Derives rules kinds ctx ex s leaves outs ↔
      ∃ r ∈ rules, r.lhs = s ∧ ∃ outs', DerivesAll rules kinds ctx ex r.rhs leaves outs' ∧
        outs = onEach outs' (r.results ctx ex leaves) := by
  constructor
  · rintro ⟨hr, h⟩
    exact ⟨_, hr, rfl, _, h, rfl⟩
  · rintro ⟨r, hr, rfl, outs', h, rfl⟩
    exact .rewrite hr h

theorem derivesAll_nil_iff {leaves : List Filler} {outs : Outcomes (List Child)} :
    DerivesAll rules kinds ctx ex [] leaves outs ↔ leaves = [] ∧ outs = [.ok []] := by
  constructor
  · rintro ⟨⟩
    exact ⟨rfl, rfl⟩
  · rintro ⟨rfl, rfl⟩
    exact .nil

/-- A symbol that is not derived has a filler. -/
theorem derivesAll_stay_iff {s : String} (hs : kinds.OnlyGiven s) {rest : List String} {leaves : List Filler}
    {outs : Outcomes (List Child)} :
    DerivesAll rules kinds ctx ex (s :: rest) leaves outs ↔
      ∃ f leaves' outs', f.symbol = s ∧ f.Fits ∧ leaves = f :: leaves' ∧
        outs = mapOk (f.child?.toList ++ ·) outs' ∧ DerivesAll rules kinds ctx ex rest leaves' outs' := by
  constructor
  · intro h
    cases h with
    | expand hf => exact absurd hf hs.2
    | stay _ hfit hrest => exact ⟨_, _, _, rfl, hfit, rfl, rfl, hrest⟩
  · rintro ⟨f, leaves', outs', rfl, hfit, rfl, rfl, hrest⟩
    exact .stay hs.1 hfit hrest

/-- One symbol that is not derived has a filler. -/
theorem derivesAll_single_iff {s : String} (hs : kinds.OnlyGiven s) {leaves : List Filler}
    {outs : Outcomes (List Child)} :
    DerivesAll rules kinds ctx ex [s] leaves outs ↔
      ∃ f, f.symbol = s ∧ f.Fits ∧ leaves = [f] ∧ outs = [.ok f.child?.toList] := by
  rw [derivesAll_stay_iff hs]
  constructor
  · rintro ⟨f, leaves', outs', hf, hfit, rfl, rfl, hrest⟩
    obtain ⟨rfl, rfl⟩ := derivesAll_nil_iff.mp hrest
    exact ⟨f, hf, hfit, rfl, by simp⟩
  · rintro ⟨f, hf, hfit, rfl, rfl⟩
    exact ⟨f, [], [.ok []], hf, hfit, rfl, by simp, .nil⟩

/-- A category that has no fillers is derived. -/
theorem derivesAll_fresh_iff {s : String} (hs : kinds.OnlyFresh s) {leaves : List Filler}
    {outs : Outcomes (List Child)} :
    DerivesAll rules kinds ctx ex [s] leaves outs ↔
      ∃ outs', Derives rules kinds ctx ex s leaves outs' ∧ outs = mapOk ([·]) outs' := by
  have hone : ∀ outs' : Outcomes Child,
      (onEach outs' fun c => mapOk (c :: ·) [.ok []]) = mapOk ([·]) outs' := by
    intro outs'
    simp
  constructor
  · intro h
    cases h with
    | expand _ hd hrest =>
      obtain ⟨rfl, rfl⟩ := derivesAll_nil_iff.mp hrest
      rw [List.append_nil]
      exact ⟨_, hd, hone _⟩
    | stay hf => exact absurd hf hs.2
  · rintro ⟨outs', hd, rfl⟩
    have h := DerivesAll.expand hs.1 hd .nil
    rwa [List.append_nil, hone] at h

/-- One more symbol at the end that is not derived. -/
theorem derivesAll_pair_iff {s t : String} (ht : kinds.OnlyGiven t) {leaves : List Filler}
    {outs : Outcomes (List Child)} :
    DerivesAll rules kinds ctx ex [s, t] leaves outs ↔
      ∃ leaves' outs' f, DerivesAll rules kinds ctx ex [s] leaves' outs' ∧ f.symbol = t ∧ f.Fits ∧
        leaves = leaves' ++ [f] ∧ outs = mapOk (· ++ f.child?.toList) outs' := by
  have hmove : ∀ (outs' : Outcomes Child) (l : List Child),
      (onEach outs' fun c => mapOk (c :: ·) [.ok l]) =
        mapOk (· ++ l) (onEach outs' fun c => mapOk (c :: ·) [.ok []]) := by
    intro outs' l
    simp [mapOk_mapOk]
  constructor
  · intro h
    cases h with
    | expand hs hd hrest =>
      obtain ⟨f, hf, hfit, rfl, rfl⟩ := (derivesAll_single_iff ht).mp hrest
      refine ⟨_, _, f, .expand hs hd .nil, hf, hfit, ?_, hmove _ _⟩
      rw [List.append_nil]
    | stay hs hfit' hrest =>
      obtain ⟨f, hf, hfit, rfl, rfl⟩ := (derivesAll_single_iff ht).mp hrest
      exact ⟨_, _, f, .stay hs hfit' .nil, hf, hfit, rfl, by simp⟩
  · rintro ⟨leaves', outs', f, h, hf, hfit, rfl, rfl⟩
    have hright : DerivesAll rules kinds ctx ex [t] [f] _ :=
      (derivesAll_single_iff ht).mpr ⟨f, hf, hfit, rfl, rfl⟩
    cases h with
    | expand hs hd hrest =>
      obtain ⟨rfl, rfl⟩ := derivesAll_nil_iff.mp hrest
      rw [List.append_nil, ← hmove]
      exact .expand hs hd hright
    | stay hs hfit' hrest =>
      obtain ⟨rfl, rfl⟩ := derivesAll_nil_iff.mp hrest
      have h := DerivesAll.stay hs hfit' hright
      simpa using h

/-- There are as many children as categories. -/
theorem length_of_derivesAll (hfresh : ∀ s, kinds.fresh s → isCat s = true) {symbols : List String}
    {leaves : List Filler} {outs : Outcomes (List Child)} (h : DerivesAll rules kinds ctx ex symbols leaves outs)
    {children : List Child} (hc : .ok children ∈ outs) : children.length = symbols.countP isCat := by
  induction symbols generalizing leaves outs children with
  | nil =>
    obtain ⟨-, rfl⟩ := derivesAll_nil_iff.mp h
    obtain rfl : children = [] := by simpa using hc
    rfl
  | cons s symbols ih =>
    rw [List.countP_cons]
    cases h with
    | expand hs hd hrest =>
      obtain ⟨c, -, hc⟩ := ok_mem_onEach_iff.mp hc
      obtain ⟨rest, hmem, rfl⟩ := ok_mem_mapOk_iff.mp hc
      rw [List.length_cons, ih hrest hmem, if_pos (hfresh s hs)]
    | stay hs hfit hrest =>
      obtain ⟨rest, hmem, rfl⟩ := ok_mem_mapOk_iff.mp hc
      rw [List.length_append, ih hrest hmem, hfit.length_child?, Nat.add_comm]

/-! ## Applications -/

/-- **An application of a function** over a span to children with certain meanings, and the meanings that come
out. -/
def Applied (sem : SemanticFn) (ctx : SemContext) (ex : Example) (first last : Nat) (meanings : List Meaning)
    (outs : Outcomes Meaning) : Prop :=
  ∃ call : Call, call.first = first ∧ call.last = last ∧ call.children.map Child.meaning = meanings ∧
    outs = mapOk Candidate.meaning (sem.apply ctx ex call).items

/-- One outcome of a step for each of several results; errors stay. -/
inductive Each (step : α → Outcomes β → Prop) : Outcomes α → Outcomes β → Prop
  | nil : Each step [] []
  | ok {a : α} {outs : Outcomes α} {results results' : Outcomes β} :
      step a results → Each step outs results' → Each step (.ok a :: outs) (results ++ results')
  | error {e : SemanticError} {outs : Outcomes α} {results : Outcomes β} :
      Each step outs results → Each step (.error e :: outs) (.error e :: results)

/-- A step that has one outcome only for each result. -/
theorem each_onEach {step : α → Outcomes β → Prop} {f : α → Outcomes β} (h : ∀ a, step a (f a))
    (outs : Outcomes α) : Each step outs (onEach outs f) := by
  induction outs with
  | nil => exact .nil
  | cons out outs ih =>
    cases out with
    | ok a => exact .ok (h a) ih
    | error e => exact .error ih

/-- A step for each of several results that are seen through a function takes that function first. -/
theorem each_mapOk_iff (step : β → Outcomes γ → Prop) (f : α → β) {outs : Outcomes α}
    {results : Outcomes γ} :
    Each step (mapOk f outs) results ↔ Each (fun a => step (f a)) outs results := by
  induction outs generalizing results with
  | nil =>
    constructor <;>
    · rintro ⟨⟩
      exact .nil
  | cons out outs ih =>
    cases out with
    | ok a =>
      constructor
      · rintro (_ | ⟨hs, hr⟩ | _)
        exact .ok hs (ih.mp hr)
      · rintro (_ | ⟨hs, hr⟩ | _)
        exact .ok hs (ih.mpr hr)
    | error e =>
      constructor
      · rintro (_ | _ | ⟨hr⟩)
        exact .error (ih.mp hr)
      · rintro (_ | _ | ⟨hr⟩)
        exact .error (ih.mpr hr)

/-- For a single result there is a single outcome. -/
theorem each_single_iff {step : α → Outcomes β → Prop} {a : α} {results : Outcomes β} :
    Each step [.ok a] results ↔ step a results := by
  constructor
  · rintro (_ | ⟨hs, ⟨⟩⟩ | _)
    simpa using hs
  · intro h
    simpa using Each.ok h .nil

/-- **The left fold of a function** over children, from what comes out before them: each child is the right one of
two arguments, the left one of which is any result so far. All applications start at the same place, and each ends with
its child. -/
inductive LeftFold (sem : SemanticFn) (ctx : SemContext) (ex : Example) (first : Nat) (base : Outcomes Meaning) :
    List Child → Outcomes Meaning → Prop
  | base : LeftFold sem ctx ex first base [] base
  | step {cs : List Child} {c : Child} {outs outs' : Outcomes Meaning} :
      LeftFold sem ctx ex first base cs outs →
        Each (fun m => Applied sem ctx ex first c.last [m, c.meaning]) outs outs' →
          LeftFold sem ctx ex first base (cs ++ [c]) outs'

theorem leftFold_nil_iff {sem : SemanticFn} {first : Nat} {base outs : Outcomes Meaning} :
    LeftFold sem ctx ex first base [] outs ↔ outs = base := by
  constructor
  · generalize hcs : ([] : List Child) = cs
    rintro (_ | _)
    · rfl
    · simp at hcs
  · rintro rfl
    exact .base

/-- **The last child of a left fold** is the right argument of the last application, for each result so far. -/
theorem leftFold_concat_iff {sem : SemanticFn} {first : Nat} {base outs : Outcomes Meaning} {cs : List Child}
    {c : Child} :
    LeftFold sem ctx ex first base (cs ++ [c]) outs ↔
      ∃ outs', LeftFold sem ctx ex first base cs outs' ∧
        Each (fun m => Applied sem ctx ex first c.last [m, c.meaning]) outs' outs := by
  constructor
  · generalize hcs : cs ++ [c] = cs'
    rintro (_ | ⟨hfold, heach⟩)
    · simp at hcs
    · obtain ⟨rfl, hc⟩ := List.append_inj' hcs rfl
      obtain rfl := List.singleton_inj.mp hc
      exact ⟨_, hfold, heach⟩
  · rintro ⟨outs', hfold, heach⟩
    exact .step hfold heach

end Parlance
