import Parlance.Proofs.Meet
import Parlance.Proofs.Renaming
import Parlance.Typing.Inference

/-!
# `Proofs.InferenceRun` — what a run of inference goes through

A run of inference comes to a type and a scope, or it stops. If it comes to something then each of its parts did, and
what the parts are is said here for each way to put runs together. A value and a call with the wrong or no known
function have runs that do not depend on the scope.

## Contents
- **Places.** `Found`: what stands in a formula, and below which binders.
- **Runs.** Inversion of `>>=`, `demand`, `narrow` and `withVariable`.
- **Values.** `exists_inferValue`: a value has a type of its own, which the expected type is met with.
- **Calls.** Those that inference does not look into: `isUnknownCall` and `isMalformedCall`.
-/

namespace Parlance

/-! ## Places -/

namespace Formula

/-- **What stands in a formula**, with the variables bound there, the innermost first. It is looked for only inside of
formulas that `enters` admits. -/
inductive Found (enters : Formula → Bool) : Formula → List String → Formula → Prop
  | here (f : Formula) : Found enters f [] f
  | inside {f c g : Formula} {bound : List String} (he : enters f = true) (hc : c ∈ f.children)
    (hg : Found enters c bound g) : Found enters f (bound ++ f.binders) g

end Formula

namespace Typing

open Formula

variable {s : Setting} {β γ : Type} {b : β} {c : γ} {scope scope' : Scope} {t u : SemType} {x : String}

/-! ## Runs -/

theorem run_bind_iff {run : Inference β} {next : β → Inference γ} :
    (run >>= next).run scope = some (c, scope') ↔
      ∃ b middle, run.run scope = some (b, middle) ∧ (next b).run middle = some (c, scope') := by
  rw [StateT.run_bind, Option.bind_eq_bind, Option.bind_eq_some_iff, Prod.exists]

theorem run_pure_iff {b' : β} :
    (pure b : Inference β).run scope = some (b', scope') ↔ b = b' ∧ scope = scope' := by
  rw [StateT.run_pure]
  exact Option.some_inj.trans Prod.mk_inj

theorem run_demand_iff :
    (demand t).run scope = some (u, scope') ↔ t.isValid = true ∧ t = u ∧ scope = scope' := by
  unfold demand
  split
  case isTrue h => rw [run_pure_iff, and_iff_right h]
  case isFalse h => exact iff_of_false nofun fun hrun => h hrun.1

/-- A variable that is bound is narrowed in the scope. -/
theorem run_narrow_some {known : SemType} (h : scope.find? x = some known) :
    (narrow s x t).run scope =
      (demand (known.meet s.hierarchy t)).run (scope.set x (known.meet s.hierarchy t)) := by
  unfold narrow
  simp only [StateT.run_bind, StateT.run_get, Option.pure_def, Option.bind_eq_bind, Option.bind_some, h]
  rfl

/-- A free variable has the expected type, where there may be one. -/
theorem run_narrow_none (h : scope.find? x = none) :
    (narrow s x t).run scope = if s.freeAllowed then (demand t).run scope else none := by
  unfold narrow
  simp only [StateT.run_bind, StateT.run_get, Option.pure_def, Option.bind_eq_bind, Option.bind_some, h]
  split <;> rfl

/-- What runs under a new binding starts in a larger scope, and the binding is given up at the end. -/
theorem run_withVariable_iff {body : Inference SemType} :
    (withVariable x body).run scope = some (t, scope') ↔
      ∃ middle, body.run ((x, .top) :: scope) = some (t, middle) ∧ middle.tail = scope' := by
  unfold withVariable
  simp only [run_bind_iff, run_pure_iff]
  constructor
  · rintro ⟨_, _, hpush, t', middle, hbody, _, _, hpop, rfl, rfl⟩
    obtain ⟨-, rfl⟩ := Prod.mk.inj (Option.some.inj hpush)
    obtain ⟨-, rfl⟩ := Prod.mk.inj (Option.some.inj hpop)
    exact ⟨middle, hbody, rfl⟩
  · rintro ⟨middle, hbody, rfl⟩
    exact ⟨(), _, rfl, t, middle, hbody, (), _, rfl, rfl, rfl⟩

/-! ## Values -/

/-- **A value has a type of its own**, which the expected type is met with. -/
theorem exists_inferValue (lookup : TypeLookup) (hierarchy : Hierarchy) (v : Value) :
    ∃ own, ∀ free t, inferValue ⟨lookup, hierarchy, free⟩ v t = demand (t.meet hierarchy own) := by
  cases v with
  | number | string | date | boolean | list => exact ⟨_, fun _ _ => rfl⟩
  | name id =>
    simp only [inferValue, inferName]
    split
    · exact ⟨_, fun _ _ => rfl⟩
    · split
      · exact ⟨_, fun _ _ => rfl⟩
      · exact ⟨_, fun _ _ => rfl⟩
  | error =>
    refine ⟨.bottom, fun free t => ?_⟩
    have hinvalid : (t.meet hierarchy .bottom).isValid = false := by
      cases h : (t.meet hierarchy .bottom).isValid with
      | false => rfl
      | true => exact absurd (SemType.isValid_of_meet hierarchy t .bottom h).2 (by simp)
    rw [demand, hinvalid]
    rfl

/-! ## Calls -/

/-- A call of a function that nothing is known about. Anything may come out of it. -/
def isUnknownCall : Formula → Bool
  | call function _ =>
    match function.name? with
    | none => false
    | some name => (signature? name).isNone
  | _ => false

/-- **A malformed call**: of what is not a name, or of a known function with another number of arguments than it
takes. -/
def isMalformedCall : Formula → Bool
  | call function arguments =>
    match function.name? with
    | none => true
    | some name => (signature? name).any fun known => known.1.length != arguments.length
  | _ => false

/-- **Whether inference looks at the subformulas** of a formula: at those of a call only if it is well-formed and of a
known function. -/
def looksInside (f : Formula) : Bool := !isUnknownCall f && !isMalformedCall f

theorem infer_of_isUnknownCall {f : Formula} (h : isUnknownCall f = true) (t : SemType) : infer s f t = pure .any := by
  cases f with
  | call function arguments =>
    unfold isUnknownCall at h
    rw [infer]
    cases hname : function.name? with
    | none => simp [hname] at h
    | some name =>
      have hsig : signature? name = none := by simpa [hname] using h
      simp [hsig]
  | _ => cases h

theorem infer_of_isMalformedCall {f : Formula} (h : isMalformedCall f = true) (t : SemType) :
    infer s f t = pure .bottom := by
  cases f with
  | call function arguments =>
    unfold isMalformedCall at h
    rw [infer]
    cases hname : function.name? with
    | none => rfl
    | some name =>
      cases hsig : signature? name with
      | none => simp [hname, hsig] at h
      | some known =>
        obtain ⟨types, result⟩ := known
        simp only [hname, hsig, Option.any_some, bne_iff_ne] at h
        simp [hsig, h]
  | _ => cases h

/-- **A call that inference looks into** has arguments of the types that the function expects. -/
theorem exists_infer_call {function : Formula} {arguments : List Formula}
    (h : looksInside (call function arguments) = true) :
    function.value?.isSome = true ∧ ∃ types result, types.length = arguments.length ∧ ∀ t,
      infer s (call function arguments) t =
        (do inferArguments s arguments types; demand (t.meet s.hierarchy result)) := by
  simp only [looksInside, isUnknownCall, isMalformedCall, Bool.and_eq_true, Bool.not_eq_true'] at h
  cases hname : function.name? with
  | none => simp [hname] at h
  | some name =>
    cases hsig : signature? name with
    | none => simp [hname, hsig] at h
    | some known =>
      obtain ⟨types, result⟩ := known
      have hlen : types.length = arguments.length := by simpa [hname, hsig] using h
      refine ⟨?_, types, result, hlen, fun t => ?_⟩
      · cases function with
        | value => rfl
        | _ => cases hname
      · rw [infer]
        simp [hname, hsig, hlen]

end Typing

end Parlance
