import Parlance.Proofs.InferenceRun
import Parlance.Proofs.SimplestForm

/-!
# `Proofs.Expectations` — what is inferred where an invalid type is expected

Inference narrows the expected type. So where that is not valid to begin with a run stops, for nearly all formulas meet
the expected type with something and check what comes out of it. The others are calls that inference does not look
into, and arithmetic that begins with such a call. They do not look at the expected type at all, and the type that they
come to is not the type of a function.

## Contents
- **Types without functions.** `SemType.IsFlat`: what does not contain a function has no results and no reverse.
- **Invalid expectations.** `infer_of_not_isValid`, and `toleratesInvalid` for what does not stop.
-/

namespace Parlance

/-! ## Types without functions -/

namespace SemType

variable {h : Hierarchy} {t a b : SemType} {ts : List SemType}

/-- **Types without functions**: all members are atomic. Those without any members are among them. -/
def IsFlat (t : SemType) : Prop := ∀ m ∈ members t, ∃ name, m = atomic name

theorem isFlat_of_not_isValid (ht : t.isValid = false) : IsFlat t := fun m hm =>
  absurd ((isValid_iff t).mpr ⟨m, hm⟩) (Bool.eq_false_iff.mp ht)

theorem isFlat_atomic (name : String) : IsFlat (atomic name) := fun _ hm => ⟨name, List.mem_singleton.mp hm⟩

theorem not_isFlat_top : ¬ IsFlat top := fun ht => by
  obtain ⟨name, hname⟩ := ht top List.mem_cons_self
  cases hname

theorem IsFlat.of_mem (hu : IsFlat (union ts)) (ht : t ∈ ts) : IsFlat t := fun m hm =>
  hu m (mem_membersOfAll.mpr ⟨t, ht, hm⟩)

theorem isFlat_unionOf (hts : ∀ t ∈ ts, IsFlat t) : IsFlat (unionOf ts) := by
  have hall : ∀ m ∈ membersOfAll ts, ∃ name, m = atomic name := fun m hm => by
    obtain ⟨t, ht, hmt⟩ := mem_membersOfAll.mp hm
    exact hts t ht m hmt
  have htop : top ∉ membersOfAll ts := fun htop => by
    obtain ⟨name, hname⟩ := hall top htop
    cases hname
  exact fun m hm => hall m ((mem_members_unionOf htop).mp hm)

/-- A function without functions is not a valid type. -/
theorem IsFlat.not_isValid (hf : IsFlat (func a b)) : (func a b).isValid = false := by
  by_contra hvalid
  have hmembers : members (func a b) = [func a b] := if_pos (Bool.not_eq_false _ ▸ hvalid)
  obtain ⟨name, hname⟩ := hf (func a b) (hmembers ▸ List.mem_cons_self)
  cases hname

/-- The meet with a type without functions has none either. -/
theorem isFlat_meet (h : Hierarchy) (a b : SemType) (hb : IsFlat b) : IsFlat (meet h a b) := by
  induction a, b using meet.induct h with
  | case1 t => rwa [meet_top_left]
  | case2 t _ => exact absurd hb not_isFlat_top
  | case3 ms t ht ih =>
    rw [meet_union_left h ms ht]
    refine isFlat_unionOf fun u hu => ?_
    obtain ⟨m, hm, rfl⟩ := List.mem_map.mp hu
    exact ih m hm hb
  | case4 t ms ht hu ih =>
    rw [meet_union_right h ms ht hu]
    refine isFlat_unionOf fun u hu => ?_
    obtain ⟨m, hm, rfl⟩ := List.mem_map.mp hu
    exact ih m hm (hb.of_mem hm)
  | case5 a b hab =>
    rw [meet_atomic, if_pos hab]
    exact isFlat_atomic a
  | case6 a b hab hba =>
    rw [meet_atomic, if_neg hab, if_pos hba]
    exact isFlat_atomic b
  | case7 a b hab hba =>
    rw [meet_atomic, if_neg hab, if_neg hba]
    exact isFlat_of_not_isValid rfl
  | case8 a r b s argument result hvalid _ _ =>
    rw [Bool.and_eq_true] at hvalid
    have hb' : b.isValid = true := (isValid_of_meet h a b hvalid.1).2
    have hs : s.isValid = true := (isValid_of_meet h r s hvalid.2).2
    exact absurd hb.not_isValid (by simp [isValid, hb', hs])
  | case9 a r b s argument result hvalid _ _ =>
    rw [meet_func, if_neg hvalid]
    exact isFlat_of_not_isValid rfl
  | case10 name argument result =>
    rw [meet_atomic_func]
    exact isFlat_of_not_isValid rfl
  | case11 argument result name =>
    rw [meet_func_atomic]
    exact isFlat_of_not_isValid rfl

/-- What does not contain a function has no results. -/
theorem IsFlat.not_isValid_apply (h : Hierarchy) (argument : SemType) {t : SemType} (ht : IsFlat t) :
    (apply h t argument).isValid = false := by
  cases t with
  | top => exact absurd ht not_isFlat_top
  | atomic name => rfl
  | func a b =>
    rw [apply]
    split
    case isTrue hmeet =>
      have ha : a.isValid = true := (isValid_of_meet h a argument hmeet).1
      have hfunc := ht.not_isValid
      rwa [isValid, ha, Bool.true_and] at hfunc
    case isFalse => rfl
  | union ts =>
    rw [apply_union, Bool.eq_false_iff, ne_eq, isValid_unionOf]
    rintro ⟨u, hu, hvalid⟩
    obtain ⟨t, htts, rfl⟩ := List.mem_map.mp hu
    exact absurd (IsFlat.not_isValid_apply h argument (ht.of_mem htts)) (by simp [hvalid])

/-- What does not contain a function has no reverse. -/
theorem IsFlat.not_isValid_reverse {t : SemType} (ht : IsFlat t) : t.reverse.isValid = false := by
  cases t with
  | top => exact absurd ht not_isFlat_top
  | atomic name => rfl
  | func a b =>
    have hfunc := ht.not_isValid
    rwa [isValid, Bool.and_comm] at hfunc
  | union ts =>
    rw [reverse_union, Bool.eq_false_iff, ne_eq, isValid_unionOf]
    rintro ⟨u, hu, hvalid⟩
    obtain ⟨t, htts, rfl⟩ := List.mem_map.mp hu
    exact absurd (ht.of_mem htts).not_isValid_reverse (by simp [hvalid])

theorem not_isValid_argType (h : Hierarchy) (ht : t.isValid = false) : (t.argType h).isValid = false :=
  (isFlat_of_not_isValid (isFlat_of_not_isValid ht).not_isValid_reverse).not_isValid_apply h top

theorem not_isValid_meet_left (h : Hierarchy) (a b : SemType) (ha : a.isValid = false) :
    (meet h a b).isValid = false := by
  rw [Bool.eq_false_iff]
  exact fun hmeet => absurd (isValid_of_meet h a b hmeet).1 (by simp [ha])

theorem not_isValid_meet_right (h : Hierarchy) (a b : SemType) (hb : b.isValid = false) :
    (meet h a b).isValid = false := by
  rw [Bool.eq_false_iff]
  exact fun hmeet => absurd (isValid_of_meet h a b hmeet).2 (by simp [hb])

end SemType

namespace Typing

open Formula SemType

variable {s : Setting} {f : Formula} {x : String} {scope scope' : Scope} {t u : SemType}

/-! ## Invalid expectations -/

theorem not_run_demand (ht : t.isValid = false) : (demand t).run scope ≠ some (u, scope') := fun h =>
  absurd (run_demand_iff.mp h).1 (by simp [ht])

/-- No variable has an invalid type. -/
theorem not_run_narrow (ht : t.isValid = false) : (narrow s x t).run scope ≠ some (u, scope') := by
  cases hx : scope.find? x with
  | some known =>
    rw [run_narrow_some hx]
    exact not_run_demand (not_isValid_meet_right s.hierarchy known t ht)
  | none =>
    rw [run_narrow_none hx]
    split
    · exact not_run_demand ht
    · nofun

/-- **Formulas that may have a valid type where an invalid one is expected**: calls of unknown functions, and
arithmetic with one of them on the left, or on the right of a malformed call. -/
def ignoresExpected : Formula → Bool
  | .arithmetic _ left right => ignoresExpected left || (isMalformedCall left && ignoresExpected right)
  | .call function arguments => isUnknownCall (call function arguments)
  | _ => false

/-- **Almost nothing has a type where an invalid one is expected**, and if something does then no function has that
type. -/
theorem infer_of_not_isValid (ht : t.isValid = false) (h : (infer s f t).run scope = some (u, scope')) :
    u.IsFlat ∧ (ignoresExpected f = true ∨ isMalformedCall f = true ∧ u.isValid = false) := by
  induction f using children_induction generalizing t scope u scope' with
  | step f ih =>
    -- in all cases but arithmetic and calls there is a check that fails where the expected type is invalid
    cases f with
    | value v =>
      obtain ⟨lookup, hierarchy, free⟩ := s
      obtain ⟨own, hown⟩ := exists_inferValue lookup hierarchy v
      rw [infer, hown] at h
      exact absurd h (not_run_demand (not_isValid_meet_left hierarchy t own ht))
    | var x =>
      rw [infer] at h
      exact absurd h (not_run_narrow ht)
    | join relation child =>
      simp only [infer] at h
      split at h
      case h_1 => exact absurd h (not_run_demand (not_isValid_meet_left _ _ _ ht))
      case h_2 =>
        split at h
        case isTrue =>
          obtain ⟨_, _, -, hresult⟩ := run_bind_iff.mp h
          exact absurd hresult (not_run_demand (not_isValid_meet_left _ _ _ ht))
        case isFalse =>
          simp only [run_bind_iff] at h
          obtain ⟨_, _, -, childType, _, -, _, _, hrelation, hresult⟩ := h
          -- the relation is inferred a second time, as a function with results in the expected type
          have hfunc : (func childType t).isValid = false := by simp [isValid, ht]
          obtain ⟨hflat, -⟩ := ih relation (by simp [children]) hfunc hrelation
          exact absurd hresult (not_run_demand (hflat.not_isValid_apply _ _))
    | merge m left right | mark x body | not child =>
      simp only [infer, run_bind_iff] at h
      obtain ⟨_, _, hdemand, -⟩ := h
      exact absurd hdemand (not_run_demand (not_isValid_meet_left _ _ _ ht))
    | lambda x body =>
      rw [infer, run_withVariable_iff] at h
      simp only [run_bind_iff] at h
      obtain ⟨_, ⟨_, _, -, _, _, hnarrow, -⟩, -⟩ := h
      exact absurd hnarrow (not_run_narrow (not_isValid_argType _ ht))
    | aggregate mode child =>
      rw [infer, run_bind_iff] at h
      obtain ⟨childType, _, -, hresult⟩ := h
      have hbound : ∀ own, (meet s.hierarchy own t).isValid = false := fun own => not_isValid_meet_right _ _ _ ht
      split at hresult
      case isTrue => exact absurd hresult (not_run_demand (hbound _))
      case isFalse => exact absurd hresult (not_run_demand (not_isValid_meet_left _ _ _ (hbound _)))
    | arithmetic m left right =>
      simp only [infer, run_bind_iff, run_demand_iff] at h
      obtain ⟨_, _, hleft, _, _, hright, hvalid, rfl, -⟩ := h
      have hflat : numberOrDate.IsFlat := isFlat_unionOf (by simp [isFlat_atomic, number, date])
      refine ⟨isFlat_meet _ _ _ hflat, Or.inl ?_⟩
      obtain ⟨-, hleft | ⟨hmalformed, hinvalid⟩⟩ := ih left (by simp [children]) ht hleft
      · simp [ignoresExpected, hleft]
      · -- the right side is expected to have the type of a malformed call
        obtain ⟨-, hright | ⟨-, hright⟩⟩ := ih right (by simp [children]) hinvalid hright
        · simp [ignoresExpected, hmalformed, hright]
        · exact absurd hvalid (by simp [not_isValid_meet_left _ _ _ hright])
    | reverse child =>
      rw [infer, run_bind_iff] at h
      obtain ⟨_, _, hchild, hresult⟩ := h
      have hreverse : t.reverse.isValid = false := (isFlat_of_not_isValid ht).not_isValid_reverse
      obtain ⟨hflat, -⟩ := ih child (by simp [children]) hreverse hchild
      exact absurd hresult (not_run_demand hflat.not_isValid_reverse)
    | superlative m rank count head relation =>
      simp only [infer, run_bind_iff] at h
      obtain ⟨_, _, -, _, _, -, _, _, hdemand, -⟩ := h
      exact absurd hdemand (not_run_demand (not_isValid_meet_left _ _ _ ht))
    | call function arguments =>
      cases hunknown : isUnknownCall (call function arguments) with
      | true =>
        rw [infer_of_isUnknownCall hunknown, run_pure_iff] at h
        obtain ⟨rfl, -⟩ := h
        exact ⟨isFlat_atomic _, Or.inl hunknown⟩
      | false =>
        cases hmalformed : isMalformedCall (call function arguments) with
        | true =>
          rw [infer_of_isMalformedCall hmalformed, run_pure_iff] at h
          obtain ⟨rfl, -⟩ := h
          exact ⟨isFlat_of_not_isValid rfl, Or.inr ⟨rfl, rfl⟩⟩
        | false =>
          have hlooks : looksInside (call function arguments) = true := by simp [looksInside, hunknown, hmalformed]
          obtain ⟨-, _, _, -, hinfer⟩ := exists_infer_call (s := s) hlooks
          rw [hinfer, run_bind_iff] at h
          obtain ⟨_, _, -, hresult⟩ := h
          exact absurd hresult (not_run_demand (not_isValid_meet_left _ _ _ ht))

/-- Whether a formula may come to something where an invalid type is expected. -/
def toleratesInvalid (f : Formula) : Bool := ignoresExpected f || isMalformedCall f

theorem not_run_of_not_isValid (hf : toleratesInvalid f = false) (ht : t.isValid = false) :
    (infer s f t).run scope ≠ some (u, scope') := fun h => by
  obtain ⟨-, h | ⟨h, -⟩⟩ := infer_of_not_isValid ht h <;> simp [toleratesInvalid, h] at hf

/-- What tolerates an invalid type does not look at the expected type at all. -/
theorem infer_of_toleratesInvalid (h : toleratesInvalid f = true) (t t' : SemType) : infer s f t = infer s f t' := by
  induction f using children_induction with
  | step f ih =>
    cases hmalformed : isMalformedCall f with
    | true => rw [infer_of_isMalformedCall hmalformed, infer_of_isMalformedCall hmalformed]
    | false =>
      rw [toleratesInvalid, hmalformed, Bool.or_false] at h
      cases f with
      | call => rw [infer_of_isUnknownCall h, infer_of_isUnknownCall h]
      | arithmetic m left right =>
        have hleft : toleratesInvalid left = true := by
          simp only [ignoresExpected, Bool.or_eq_true, Bool.and_eq_true] at h
          rcases h with h | ⟨h, -⟩ <;> simp [toleratesInvalid, h]
        simp only [infer, ih left (by simp [children]) hleft]
      | _ => cases h

end Typing

end Parlance
