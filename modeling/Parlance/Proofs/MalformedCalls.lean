import Parlance.Proofs.Expectations
import Parlance.Proofs.Scoping

/-!
# `Proofs.MalformedCalls` — which malformed calls spoil a formula

A malformed call does not stop the run of inference. It has the invalid type `bottom`, and it is left to the formulas
around it to find out. Most of them do: some check the type of a subformula, and then the run stops; some pass the type
on as their own or a part of it, and then they have no valid type either.

But a count looks at what it counts for nothing but failures, and so does a superlative at its rank and its count, and a
call at its arguments. There a malformed call goes unnoticed, and so it does where its type only serves as the expected
type of a formula that does not look at that. Such a call might as well be one of an unknown function.

## Contents
- **Exposed subformulas.** `Exposed`: those on whose type that of the whole depends, and what they spoil.
- **Runs alike.** `Alike`: runs that differ at most in what they come to.
- **Repaired formulas.** `repair` puts a call of an unknown function in the place of each malformed one, and nobody
  notices where those were hidden: `alike_repair`.
- **The whole statement**, `inferType_of_malformed`.
-/

namespace Parlance.Typing

open Formula SemType

variable {s : Setting} {f c g v : Formula} {scope scope' : Scope} {t u : SemType} {raised all : Bool}

/-! ## Exposed subformulas -/

/-- The subformulas whose types a formula checks, be it that another subformula is expected to have such a type and does
not tolerate an invalid one. -/
def checked : Formula → List Formula
  | .join relation child => [relation, child]
  | .merge _ left right => if toleratesInvalid right then [] else [left]
  | .mark _ body => [body]
  | .aggregate mode child => if mode == .count then [] else [child]
  | .arithmetic _ left right => if toleratesInvalid right then [right] else [left, right]
  | .reverse child => [child]
  | .superlative _ _ _ head relation =>
    if toleratesInvalid head then (if toleratesInvalid relation then [] else [head]) else [head, relation]
  | _ => []

section

variable {child left right rank count head relation : Formula}

theorem mem_checked_merge {m : MergeMode} :
    c ∈ checked (merge m left right) ↔ toleratesInvalid right = false ∧ c = left := by
  cases h : toleratesInvalid right <;> simp [checked, h]

theorem mem_checked_aggregate {m : AggregateMode} :
    c ∈ checked (aggregate m child) ↔ (m == .count) = false ∧ c = child := by
  cases h : m == .count <;> simp [checked, h]

theorem mem_checked_arithmetic {m : ArithmeticMode} :
    c ∈ checked (arithmetic m left right) ↔ c = right ∨ toleratesInvalid right = false ∧ c = left := by
  cases h : toleratesInvalid right <;> simp [checked, h, or_comm]

theorem mem_checked_superlative {m : SuperlativeMode} :
    c ∈ checked (superlative m rank count head relation) ↔
      toleratesInvalid relation = false ∧ c = head ∨ toleratesInvalid head = false ∧ (c = head ∨ c = relation) := by
  cases hhead : toleratesInvalid head <;> cases hrelation : toleratesInvalid relation <;>
    simp [checked, hhead, hrelation]

end

/-- The subformulas whose types are not checked, but become the type of a formula or a part of it. -/
def passed : Formula → List Formula
  | .merge _ _ right => [right]
  | .lambda _ body => [body]
  | .not child => [child]
  | .superlative _ _ _ head _ => [head]
  | _ => []

/-- No run comes to a valid type. -/
def NeverValid (s : Setting) (f : Formula) : Prop :=
  ∀ t scope u scope', (infer s f t).run scope = some (u, scope') → u.isValid = false

/-- No run comes to anything. -/
def Stops (s : Setting) (f : Formula) : Prop := ∀ bound, ¬ Visits s f bound

theorem Stops.not_run (h : Stops s f) : (infer s f t).run scope ≠ some (u, scope') := fun hrun =>
  h scope.names (visits_of_run hrun)

/-- Both sides of a join are checked. -/
theorem not_run_join {relation child : Formula} (hc : c = relation ∨ c = child) (hv : c.value? = none)
    (h : NeverValid s c) : (infer s (join relation child) t).run scope ≠ some (u, scope') := by
  intro hrun
  simp only [infer, namedType?_eq_none hc hv] at hrun
  split at hrun
  case isTrue hordering =>
    obtain ⟨_, _, hchild, hresult⟩ := run_bind_iff.mp hrun
    rcases hc with rfl | rfl
    · simp [isOrdering, name?_of_value? hv] at hordering
    · exact not_run_demand (not_isValid_meet_right _ _ _ (h _ _ _ _ hchild)) hresult
  case isFalse =>
    simp only [run_bind_iff] at hrun
    obtain ⟨_, _, -, childType, _, hchild, relationType, _, hrelation, hresult⟩ := hrun
    have hflat : relationType.IsFlat := by
      rcases hc with rfl | rfl
      · exact isFlat_of_not_isValid (h _ _ _ _ hrelation)
      · have hfunc : (func childType t).isValid = false := by simp [isValid, h _ _ _ _ hchild]
        exact (infer_of_not_isValid hfunc hrelation).1
    exact not_run_demand (hflat.not_isValid_apply _ _) hresult

/-- **A formula stops at a subformula** that it checks and that is never valid. -/
theorem stops_of_checked (hc : c ∈ checked f) (hv : c.value? = none) (h : NeverValid s c) : Stops s f := by
  rintro _ ⟨t, scope, u, scope', hrun, -⟩
  cases f with
  | value | var | lambda | not | call => cases hc
  | join relation child => exact not_run_join (by simpa [checked] using hc) hv h hrun
  | merge m left right =>
    obtain ⟨htolerates, rfl⟩ := mem_checked_merge.mp hc
    simp only [infer, run_bind_iff] at hrun
    obtain ⟨_, _, -, _, _, hleft, hright⟩ := hrun
    -- the right side is expected to have the type of the left one
    exact not_run_of_not_isValid htolerates (h _ _ _ _ hleft) hright
  | mark x body =>
    obtain rfl := List.mem_singleton.mp hc
    simp only [infer, run_bind_iff, run_withVariable_iff] at hrun
    obtain ⟨_, _, -, _, ⟨_, _, hbody, hnarrow⟩, -⟩ := hrun
    exact not_run_narrow (h _ _ _ _ hbody) hnarrow
  | aggregate mode child =>
    obtain ⟨hmode, rfl⟩ := mem_checked_aggregate.mp hc
    rw [infer, run_bind_iff] at hrun
    obtain ⟨_, _, hchild, hresult⟩ := hrun
    rw [hmode] at hresult
    exact not_run_demand (not_isValid_meet_right _ _ _ (h _ _ _ _ hchild)) hresult
  | arithmetic m left right =>
    simp only [infer, run_bind_iff] at hrun
    obtain ⟨_, _, hleft, _, _, hright, hresult⟩ := hrun
    rcases mem_checked_arithmetic.mp hc with rfl | ⟨htolerates, rfl⟩
    · exact not_run_demand (not_isValid_meet_left _ _ _ (h _ _ _ _ hright)) hresult
    · exact not_run_of_not_isValid htolerates (h _ _ _ _ hleft) hright
  | reverse child =>
    obtain rfl := List.mem_singleton.mp hc
    rw [infer, run_bind_iff] at hrun
    obtain ⟨_, _, hchild, hresult⟩ := hrun
    exact not_run_demand (isFlat_of_not_isValid (h _ _ _ _ hchild)).not_isValid_reverse hresult
  | superlative m rank count head relation =>
    simp only [infer, run_bind_iff] at hrun
    obtain ⟨_, _, -, _, _, -, _, _, -, headType, _, hhead, relationType, _, hrelation, hresult⟩ := hrun
    have hfunc : c = head → (func numberOrDate headType).isValid = false := by
      rintro rfl
      simp [isValid, h _ _ _ _ hhead]
    rcases mem_checked_superlative.mp hc with ⟨htolerates, hc⟩ | ⟨htolerates, hc⟩
    · exact not_run_of_not_isValid htolerates (hfunc hc) hrelation
    · -- the head is inferred once more, with the results of the relation for the expected type
      have hflat : relationType.IsFlat := by
        rcases hc with hc | rfl
        · exact (infer_of_not_isValid (hfunc hc) hrelation).1
        · exact isFlat_of_not_isValid (h _ _ _ _ hrelation)
      exact not_run_of_not_isValid htolerates (hflat.not_isValid_apply _ _) hresult

/-- **A formula is never valid** if its type comes from a subformula that is not. -/
theorem neverValid_of_passed (hc : c ∈ passed f) (h : NeverValid s c) : NeverValid s f := by
  intro t scope u scope' hrun
  cases f with
  | value | var | join | mark | aggregate | arithmetic | reverse | call => cases hc
  | merge m left right =>
    obtain rfl := List.mem_singleton.mp hc
    simp only [infer, run_bind_iff] at hrun
    obtain ⟨_, _, -, _, _, -, hright⟩ := hrun
    exact h _ _ _ _ hright
  | lambda x body =>
    obtain rfl := List.mem_singleton.mp hc
    rw [infer, run_withVariable_iff] at hrun
    simp only [run_bind_iff, run_pure_iff] at hrun
    obtain ⟨_, ⟨_, _, hbody, _, _, -, rfl, -⟩, -⟩ := hrun
    -- nothing checks the type of the function itself
    simp [isValid, h _ _ _ _ hbody]
  | not child =>
    obtain rfl := List.mem_singleton.mp hc
    simp only [infer, run_bind_iff] at hrun
    obtain ⟨_, _, -, hchild⟩ := hrun
    exact h _ _ _ _ hchild
  | superlative m rank count head relation =>
    obtain rfl := List.mem_singleton.mp hc
    simp only [infer, run_bind_iff] at hrun
    obtain ⟨_, _, -, _, _, -, _, _, -, _, _, -, _, _, -, hresult⟩ := hrun
    exact h _ _ _ _ hresult

/-- **A subformula on whose type the whole depends**: the formulas on the way up pass its type on until one of them
checks it. From there on an invalid type is `raised` to a failure, which goes through whatever looks inside. -/
inductive Exposed (g : Formula) : Formula → Bool → Prop
  | here : Exposed g g false
  | passed {f c : Formula} {raised : Bool} (hc : c ∈ passed f) (h : Exposed g c raised) : Exposed g f false
  | checked {f c : Formula} {raised : Bool} (hc : c ∈ checked f) (h : Exposed g c raised) : Exposed g f true
  | inside {f c : Formula} (hf : looksInside f = true) (hc : c ∈ f.children) (h : Exposed g c true) : Exposed g f true

/-- A formula with a malformed call in it is no value. -/
theorem Exposed.value?_eq_none (hg : g.value? = none) (h : Exposed g f raised) : f.value? = none := by
  cases h with
  | here => exact hg
  | passed hc | checked hc | inside _ hc =>
    cases f with
    | value => cases hc
    | _ => rfl

/-- **What is never valid spoils the whole** wherever it is exposed. -/
theorem Exposed.neverValid (hg : g.value? = none) (hnever : NeverValid s g) (h : Exposed g f raised) :
    NeverValid s f ∧ (raised = true → Stops s f) := by
  have hstops : ∀ {f : Formula}, Stops s f → NeverValid s f ∧ (true = true → Stops s f) := fun h =>
    ⟨fun _ _ _ _ hrun => absurd hrun h.not_run, fun _ => h⟩
  induction h with
  | here => exact ⟨hnever, nofun⟩
  | passed hc _ ih => exact ⟨neverValid_of_passed hc ih.1, nofun⟩
  | checked hc h ih => exact hstops (stops_of_checked hc (h.value?_eq_none hg) ih.1)
  | inside hf hc h ih =>
    exact hstops fun bound hvisits => ih.2 rfl _ (visits_child hf hc (h.value?_eq_none hg) hvisits)

/-- **A malformed call** is never given a valid type. -/
theorem neverValid_of_isMalformedCall (hg : isMalformedCall g = true) : NeverValid s g := by
  intro t scope u scope' hrun
  rw [infer_of_isMalformedCall hg, run_pure_iff] at hrun
  exact hrun.1 ▸ rfl

/-! ## Runs alike -/

variable {β γ : Type} {run run' : Inference β} {next next' : β → Inference γ}

/-- **Runs that are alike**: in `all`, or else in everything but what they come to. Whatever comes next cannot tell them
apart, if in the second case it does not look at that. -/
def Alike (all : Bool) (run run' : Inference β) : Prop :=
  ∀ (γ : Type) (next next' : β → Inference γ), (∀ b b', (all = true → b = b') → next b = next' b') →
    (run >>= next) = (run' >>= next')

theorem Alike.of_eq (h : run = run') : Alike all run run' := by
  intro γ next next' hnext
  exact h ▸ congrArg _ (funext fun b => hnext b b fun _ => rfl)

theorem Alike.eq (h : Alike true run run') : run = run' := by
  have hpure := h β pure pure fun b b' hb => congrArg _ (hb rfl)
  rwa [bind_pure, bind_pure] at hpure

theorem Alike.pure {b b' : β} (h : all = true → b = b') : Alike all (pure b) (pure b') := by
  intro γ next next' hnext
  rw [pure_bind, pure_bind]
  exact hnext b b' h

/-- Runs that are alike, one after the other. -/
theorem Alike.bind {first : Bool} (h : Alike first run run')
    (hnext : ∀ b b', (first = true → b = b') → Alike all (next b) (next' b')) :
    Alike all (run >>= next) (run' >>= next') := by
  intro δ last last' hlast
  rw [bind_assoc, bind_assoc]
  exact h δ _ _ fun b b' hb => hnext b b' hb δ last last' hlast

/-- Runs that are alike below a binder. -/
theorem Alike.withVariable {run run' : Inference SemType} (x : String) (h : Alike all run run') :
    Alike all (withVariable x run) (withVariable x run') := by
  have hsame : ∀ {run : Inference Unit}, Alike true run run := .of_eq rfl
  exact .bind hsame fun _ _ _ => .bind h fun t t' ht => .bind hsame fun _ _ _ => .pure ht

/-! ## Repaired formulas -/

/-- **Puts `v` in the place of each malformed call**, calls of unknown functions left alone. -/
def repair (v f : Formula) : Formula :=
  if isMalformedCall f then v
  else if isUnknownCall f then f
  else f.withChildren (f.children.attach.map fun ⟨c, _⟩ => repair v c)
termination_by sizeOf f
decreasing_by exact sizeOf_lt_of_mem_children ‹_›

theorem repair_of_looksInside (hf : looksInside f = true) :
    repair v f = f.withChildren (f.children.map (repair v)) := by
  simp only [looksInside, Bool.and_eq_true, Bool.not_eq_true'] at hf
  rw [repair, hf.1, hf.2]
  simp

/-- **Formulas that hide their malformed calls**: `all` of them, or at least those whose type would be raised to a
failure. -/
def Hides (all : Bool) (f : Formula) : Prop :=
  ∀ g raised, isMalformedCall g = true → all = true ∨ raised = true → ¬ Exposed g f raised

/-- A part of what is looked into hides the calls whose type would be raised. -/
theorem Hides.child (h : Hides all f) (hf : looksInside f = true) (hc : c ∈ f.children) : Hides false c := by
  intro g raised hg hraised hexposed
  obtain rfl := hraised.resolve_left nofun
  exact h g true hg (.inr rfl) (.inside hf hc hexposed)

theorem Hides.checked (h : Hides all f) (hc : c ∈ checked f) : Hides true c :=
  fun g _ hg _ hexposed => h g true hg (.inr rfl) (.checked hc hexposed)

theorem Hides.passed (h : Hides all f) (hf : looksInside f = true) (hchild : c ∈ f.children) (hc : c ∈ passed f) :
    Hides all c := by
  cases all with
  | true => exact fun g _ hg _ hexposed => h g false hg (.inl rfl) (.passed hc hexposed)
  | false => exact h.child hf hchild

/-- A formula that hides all its malformed calls is none. -/
theorem Hides.not_isMalformedCall (h : Hides true f) : isMalformedCall f = false :=
  Bool.eq_false_iff.mpr fun hf => h f false hf (.inl rfl) .here

/-- A formula that hides all of them is repaired in its parts only. -/
theorem Hides.repair_eq (h : Hides true f) : repair v f = f ∨ ∃ cs, repair v f = f.withChildren cs := by
  rw [repair, h.not_isMalformedCall]
  split
  case isTrue h => cases h
  case isFalse =>
    split
    · exact .inl rfl
    · exact .inr ⟨_, rfl⟩

theorem Hides.name?_repair (h : Hides true f) : (repair v f).name? = f.name? := by
  rcases h.repair_eq (v := v) with h | ⟨cs, h⟩ <;> rw [h]
  exact name?_withChildren cs

theorem Hides.plain?_repair (h : Hides true f) : (repair v f).plain? = f.plain? := by
  rcases h.repair_eq (v := v) with h | ⟨cs, h⟩ <;> rw [h]
  exact plain?_withChildren cs

/-- A relation that names a type still names it. -/
theorem Hides.namedType?_repair {relation child : Formula} (hr : Hides true relation) (hc : Hides true child) :
    namedType? (repair v relation) (repair v child) = namedType? relation child := by
  rw [namedType?, namedType?, hr.name?_repair, hc.plain?_repair]

theorem Hides.isOrdering_repair {relation : Formula} (hr : Hides true relation) :
    isOrdering (repair v relation) = isOrdering relation := by
  rw [isOrdering, isOrdering, hr.name?_repair]

/-- Arguments are inferred for nothing but their failures. -/
theorem inferArguments_repair {arguments : List Formula}
    (h : ∀ c ∈ arguments, ∀ t, Alike false (infer s c t) (infer s (repair v c) t)) (types : List SemType) :
    inferArguments s arguments types = inferArguments s (arguments.map (repair v)) types := by
  induction arguments generalizing types with
  | nil => rfl
  | cons argument rest ih =>
    cases types with
    | nil => rfl
    | cons t types =>
      rw [List.map_cons, inferArguments, inferArguments]
      refine h argument List.mem_cons_self t Unit _ _ fun _ _ _ => ?_
      exact ih (fun c hc => h c (List.mem_cons_of_mem _ hc)) types

/-- What tolerates an invalid type runs alike whatever it is expected to have. -/
theorem alike_infer {c d : Formula} (h : ∀ t, Alike all (infer s c t) (infer s d t)) {t t' : SemType}
    (ht : toleratesInvalid c = false → t = t') : Alike all (infer s c t) (infer s d t') := by
  cases htolerates : toleratesInvalid c with
  | true => exact infer_of_toleratesInvalid htolerates t' t ▸ h t'
  | false => exact ht htolerates ▸ h t

/-- A call that inference does not look into is replaced, or it was one of an unknown function before. -/
theorem alike_repair_of_not_looksInside (hv : isUnknownCall v = true) (hf : Hides all f)
    (hlooks : looksInside f = false) (t : SemType) : Alike all (infer s f t) (infer s (repair v f) t) := by
  rw [repair]
  split
  case isTrue hmalformed =>
    cases all with
    | true => exact absurd hmalformed (by simp [hf.not_isMalformedCall])
    | false =>
      rw [infer_of_isMalformedCall hmalformed, infer_of_isUnknownCall hv]
      exact .pure nofun
  case isFalse hmalformed =>
    have hunknown : isUnknownCall f = true := by simpa [looksInside, hmalformed] using hlooks
    rw [if_pos hunknown]
    exact .of_eq rfl

/-- **Hidden malformed calls might as well be calls of an unknown function.** If all of them are hidden, then replacing
them does not change the run; if only those that would be raised are, then it changes at most what the run comes to. -/
theorem alike_repair (hv : isUnknownCall v = true) (hf : Hides all f) (t : SemType) :
    Alike all (infer s f t) (infer s (repair v f) t) := by
  induction f using children_induction generalizing all t with
  | step f ih =>
    cases hlooks : looksInside f with
    | false => exact alike_repair_of_not_looksInside hv hf hlooks t
    | true =>
      have hchild : ∀ {c}, c ∈ f.children → ∀ t, Alike false (infer s c t) (infer s (repair v c) t) :=
        fun hc => ih _ hc (hf.child hlooks hc)
      have hchecked : ∀ {c}, c ∈ f.children → c ∈ checked f → ∀ t, infer s (repair v c) t = infer s c t :=
        fun hc hcf t => (ih _ hc (hf.checked hcf) t).eq.symm
      have hpassed : ∀ {c}, c ∈ f.children → c ∈ passed f → ∀ t, Alike all (infer s c t) (infer s (repair v c) t) :=
        fun hc hcf => ih _ hc (hf.passed hlooks hc hcf)
      -- the type of `c` is what `d` is expected to have
      have hexpected : ∀ {c d}, c ∈ f.children → (toleratesInvalid d = false → c ∈ checked f) → ∀ t,
          Alike (!toleratesInvalid d) (infer s c t) (infer s (repair v c) t) := by
        intro c d hc hcf t
        cases htolerates : toleratesInvalid d with
        | true => exact hchild hc t
        | false => exact .of_eq (hchecked hc (hcf htolerates) t).symm
      have hsame : ∀ {β : Type} {run : Inference β}, Alike true run run := .of_eq rfl
      rw [repair_of_looksInside hlooks]
      cases f with
      | value | var => exact .of_eq rfl
      | join relation child =>
        have hrelation : Hides true relation := hf.checked (by simp [checked])
        have hjoined : Hides true child := hf.checked (by simp [checked])
        refine .of_eq ?_
        simp only [children, List.map_cons, List.map_nil, withChildren, infer, hrelation.namedType?_repair hjoined,
          hrelation.isOrdering_repair,
          hchecked (c := relation) (by simp [children]) (by simp [checked]),
          hchecked (c := child) (by simp [children]) (by simp [checked])]
      | merge m left right =>
        have hleft := hexpected (c := left) (d := right) (by simp [children])
          fun h => mem_checked_merge.mpr ⟨h, rfl⟩
        simp only [children, List.map_cons, List.map_nil, withChildren, infer]
        refine .bind hsame fun t t' ht => ?_
        obtain rfl := ht rfl
        refine .bind (hleft t) fun u u' hu => ?_
        exact alike_infer (hpassed (by simp [children]) (by simp [passed])) (by simpa using hu)
      | mark x body =>
        refine .of_eq ?_
        simp only [children, List.map_cons, List.map_nil, withChildren, infer,
          hchecked (c := body) (by simp [children]) (by simp [checked])]
      | lambda x body =>
        simp only [children, List.map_cons, List.map_nil, withChildren, infer]
        refine .withVariable x (.bind (hpassed (by simp [children]) (by simp [passed]) _) fun u u' hu => ?_)
        refine .bind hsame fun w w' hw => .pure fun hall => ?_
        rw [hu hall, hw rfl]
      | not child =>
        simp only [children, List.map_cons, List.map_nil, withChildren, infer]
        refine .bind hsame fun t t' ht => ?_
        exact ht rfl ▸ hpassed (by simp [children]) (by simp [passed]) t
      | aggregate mode child =>
        simp only [children, List.map_cons, List.map_nil, withChildren, infer]
        cases hmode : mode == .count with
        | true =>
          -- a count does not look at the type of what it counts
          exact .bind (hchild (by simp [children]) _) fun _ _ _ => .of_eq rfl
        | false =>
          rw [hchecked (by simp [children]) (by simp [mem_checked_aggregate, hmode])]
          exact .of_eq rfl
      | arithmetic m left right =>
        simp only [children, List.map_cons, List.map_nil, withChildren, infer]
        have hright : ∀ t, Alike true (infer s right t) (infer s (repair v right) t) := fun t =>
          .of_eq (hchecked (by simp [children]) (by simp [mem_checked_arithmetic]) t).symm
        have hleft := hexpected (c := left) (d := right) (by simp [children])
          fun h => mem_checked_arithmetic.mpr (.inr ⟨h, rfl⟩)
        refine .bind (hleft t) fun u u' hu => ?_
        refine .bind (alike_infer hright (by simpa using hu)) fun w w' hw => ?_
        exact .of_eq (by rw [hw rfl])
      | reverse child =>
        refine .of_eq ?_
        simp only [children, List.map_cons, List.map_nil, withChildren, infer,
          hchecked (c := child) (by simp [children]) (by simp [checked])]
      | superlative m rank count head relation =>
        simp only [children, List.map_cons, List.map_nil, withChildren, infer]
        refine .bind (hchild (by simp [children]) _) fun _ _ _ => ?_
        refine .bind (hchild (by simp [children]) _) fun _ _ _ => ?_
        refine .bind hsame fun t t' ht => ?_
        obtain rfl := ht rfl
        have hhead := hexpected (c := head) (d := relation) (by simp [children])
          fun h => mem_checked_superlative.mpr (.inl ⟨h, rfl⟩)
        have hrelation := hexpected (c := relation) (d := head) (by simp [children])
          fun h => mem_checked_superlative.mpr (.inr ⟨h, .inr rfl⟩)
        refine .bind (hhead t) fun u u' hu => ?_
        refine .bind (alike_infer hrelation fun h => ?_) fun w w' hw => ?_
        · rw [hu (by simp [h])]
        · -- the head comes to the type of the whole when it is inferred for the second time
          exact alike_infer (hpassed (by simp [children]) (by simp [passed])) fun h => by rw [hw (by simp [h])]
      | call function arguments =>
        have hfunction : repair v function = function := by
          cases function with
          | value => rw [repair_of_looksInside rfl]; rfl
          | _ => cases hlooks
        have harguments : ∀ c ∈ arguments, ∀ t, Alike false (infer s c t) (infer s (repair v c) t) :=
          fun c hc => hchild (List.mem_cons_of_mem _ hc)
        refine .of_eq ?_
        simp only [children, List.map_cons, withChildren, infer, hfunction, List.length_map,
          inferArguments_repair harguments]

/-! ## The whole statement -/

/-- **Malformed calls spoil a formula exactly where they are exposed.** If a malformed call is exposed in a formula, the
formula does not have a valid type. If none is, all of them might as well be calls of an unknown function. -/
theorem inferType_of_malformed (s : Setting) (f : Formula) :
    (∀ g raised, isMalformedCall g = true → Exposed g f raised → (inferType s f).isValid = false) ∧
      (Hides true f → ∀ v, isUnknownCall v = true → inferType s (repair v f) = inferType s f) := by
  constructor
  · intro g raised hg hexposed
    have hvalue : g.value? = none := by
      cases g with
      | call => rfl
      | _ => cases hg
    by_contra hvalid
    obtain ⟨scope, hrun⟩ := exists_run_of_isValid (Bool.not_eq_false _ ▸ hvalid)
    exact hvalid ((hexposed.neverValid hvalue (neverValid_of_isMalformedCall hg)).1 _ _ _ _ hrun)
  · intro hhides v hv
    have hsame : infer s f .top = infer s (repair v f) .top := (alike_repair hv hhides .top).eq
    rw [inferType, inferType, hsame]

/-- A count of the relations to a parent that is the length of no text. The count would hide the malformed call, but the
join below it checks its type. -/
def countedParents : Formula :=
  aggregate .count (lambda "x" (join (ofName "fb:people.person.parent") (call (ofName ".length") [])))

/-- A count of lengths of no text. -/
def countedLengths : Formula := aggregate .count (call (ofName ".length") [])

theorem inferType_of_malformed_sample :
    (inferType ⟨.nothing, .standard, false⟩ countedParents).isValid = false ∧
      inferType ⟨.nothing, .standard, false⟩ (repair (call (ofName "f") []) countedLengths) =
        inferType ⟨.nothing, .standard, false⟩ countedLengths := by
  have hexposed : Exposed (call (ofName ".length") []) countedParents true := by
    have hjoin : Exposed (call (ofName ".length") [])
        (join (ofName "fb:people.person.parent") (call (ofName ".length") [])) true :=
      .checked (by simp [checked]) .here
    exact .inside rfl List.mem_cons_self (.inside rfl List.mem_cons_self hjoin)
  have hhides : Hides true countedLengths := by
    intro g raised hg _ hexposed
    cases hexposed with
    | here => cases hg
    | passed hc | checked hc => cases hc
    | inside _ hc hexposed =>
      obtain rfl := List.mem_singleton.mp hc
      cases hexposed with
      | checked hc => cases hc
      | inside hlooks => cases hlooks
  exact ⟨(inferType_of_malformed _ countedParents).1 _ true (by decide) hexposed,
    (inferType_of_malformed _ countedLengths).2 hhides _ (by decide)⟩

/-- **A count hides a malformed call**: how many lengths of no text there are has a valid type, which is numbers. -/
theorem inferType_of_malformed_not :
    ¬ ∀ (s : Setting) (f g : Formula) (bound : List String),
      Found (fun f => !isUnknownCall f) f bound g → isMalformedCall g = true → (inferType s f).isValid = false := by
  intro h
  have hfound : Found (fun f => !isUnknownCall f) countedLengths [] (call (ofName ".length") []) :=
    .inside rfl List.mem_cons_self (.here _)
  have hvalid : (inferType ⟨.nothing, .standard, false⟩ countedLengths).isValid = true := by decide +kernel
  have hinvalid := h ⟨.nothing, .standard, false⟩ _ _ _ hfound (by decide)
  rw [hvalid] at hinvalid
  cases hinvalid

end Parlance.Typing
