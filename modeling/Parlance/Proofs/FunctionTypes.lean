import Parlance.Proofs.SimplestForm

/-!
# `Proofs.FunctionTypes` — the arguments that a function takes

Whether a function takes an argument can be asked in two ways: the type of the function is applied to that of the
argument, or the argument type of the function is met with it. The second way goes through reversing, which drops what
is no function from a union, puts the rest in order anew, and comes to a single type where only one is left. All of
that leaves the members alone, and so both ways have the same answer.

## Contents
- **Unions.** `isValid_meet_unionOf`, and functions that go through unions member by member: `map_unionOf`.
- **Reversing.** `argType_union` and `argType_reverse`.
- **Agreement.** `apply_agrees_argType`.
-/

namespace Parlance.SemType

variable {h : Hierarchy} {f s t : SemType} {ms ts : List SemType}

/-! ## Unions -/

@[simp] theorem unionOf_nil : unionOf [] = bottom := by
  simp [unionOf, bottom, membersOfAll, sortedSet, dropRepeats]

@[simp] theorem unionOf_bottom : unionOf [bottom] = bottom := by
  rw [← unionOf_nil, unionOf_unionOf]

@[simp] theorem apply_bottom (h : Hierarchy) (t : SemType) : apply h bottom t = bottom := by
  rw [bottom, apply_union, List.map_nil, unionOf_nil]
  rfl

@[simp] theorem reverse_bottom : reverse bottom = bottom := by
  rw [bottom, reverse_union, List.map_nil, unionOf_nil]
  rfl

theorem Simplified.of_mem_union (hu : Simplified (SemType.union ms)) {m : SemType} (hm : m ∈ ms) :
    Simplified m ∧ isMember m = true := by
  cases hu with
  | union hms hmember => exact ⟨hms m hm, hmember m hm⟩

/-- A type meets what one of its members meets. -/
theorem isValid_meet_iff (hs : Simplified s) (ht : Simplified t) :
    (meet h s t).isValid = true ↔ ∃ m ∈ members s, (meet h m t).isValid = true := by
  simp only [isValid_iff, mem_members_meet_left hs ht]
  constructor
  · rintro ⟨x, m, hm, hx⟩
    exact ⟨m, hm, x, hx⟩
  · rintro ⟨m, hm, x, hx⟩
    exact ⟨x, m, hm, hx⟩

/-- **What meets a union** meets one of the types that it unites. -/
theorem isValid_meet_unionOf (hts : ∀ s ∈ ts, Simplified s) (ht : Simplified t) :
    (meet h (unionOf ts) t).isValid = true ↔ ∃ s ∈ ts, (meet h s t).isValid = true := by
  by_cases htop : top ∈ membersOfAll ts
  · -- the union is `top`, and so is one of the types, which everything meets
    obtain ⟨s, hs, hmem⟩ := mem_membersOfAll.mp htop
    obtain rfl := (hts s hs).eq_top hmem
    rw [unionOf_of_mem_top htop]
    constructor
    · intro hvalid
      exact ⟨top, hs, hvalid⟩
    · rintro ⟨s, -, hvalid⟩
      rw [meet_top_left]
      exact (isValid_of_meet h s t hvalid).2
  · rw [isValid_meet_iff (simplified_unionOf hts) ht]
    constructor
    · rintro ⟨m, hm, hvalid⟩
      obtain ⟨s, hs, hm⟩ := mem_membersOfAll.mp ((mem_members_unionOf htop).mp hm)
      exact ⟨s, hs, (isValid_meet_iff (hts s hs) ht).mpr ⟨m, hm, hvalid⟩⟩
    · rintro ⟨s, hs, hvalid⟩
      obtain ⟨m, hm, hvalid⟩ := (isValid_meet_iff (hts s hs) ht).mp hvalid
      exact ⟨m, (mem_members_unionOf htop).mpr (mem_membersOfAll.mpr ⟨s, hs, hm⟩), hvalid⟩

/-- A valid type in simplest form has the form of a union. -/
theorem Simplified.unionOf_singleton (hs : Simplified s) (hvalid : s.isValid = true) : unionOf [s] = s := by
  have hmembers : membersOfAll [s] = members s := List.append_nil _
  cases hs with
  | top => exact unionOf_of_mem_top List.mem_cons_self
  | atomic name => simp [unionOf, hmembers, members, sortedSet, dropRepeats]
  | func ha hr =>
    rw [isValid] at hvalid
    simp [unionOf, hmembers, members, hvalid, sortedSet, dropRepeats]
  | @union ms hms hmember hordered hlength =>
    have hself : membersOfAll [SemType.union ms] = ms := hmembers.trans (membersOfAll_of_isMember hmember)
    have htop : SemType.top ∉ ms := fun htop => Bool.false_ne_true (hmember _ htop)
    have hsorted : sortedSet le ms = ms := eq_of_mem_iff (pairwise_sortedSet ms) hordered fun _ => mem_sortedSet
    unfold unionOf
    dsimp only
    rw [hself, if_neg (by rwa [List.contains_iff_mem]), hsorted]
    split
    · exact absurd rfl hlength
    · rfl

/-- **A function of types that goes through unions** goes through the union of any members, as long as what it makes
of one has the form of a union. -/
theorem map_unionOf {g : SemType → SemType} (hunion : ∀ ms, g (union ms) = unionOf (ms.map g))
    (hts : ∀ s ∈ ts, s = bottom ∨ isMember s = true ∧ unionOf [g s] = g s) :
    g (unionOf ts) = unionOf (ts.map g) := by
  have hmem : ∀ m, m ∈ membersOfAll ts ↔ m ∈ ts ∧ isMember m = true := by
    intro m
    rw [mem_membersOfAll]
    constructor
    · rintro ⟨s, hs, hm⟩
      rcases hts s hs with rfl | ⟨hmember, -⟩
      · cases hm
      · rw [members_of_isMember hmember, List.mem_singleton] at hm
        exact hm ▸ ⟨hs, hmember⟩
    · rintro ⟨hm, hmember⟩
      exact ⟨m, hm, by simp [members_of_isMember hmember]⟩
  have htop : top ∉ membersOfAll ts := fun htop => Bool.false_ne_true ((hmem top).mp htop).2
  have hsorted : ∀ m, m ∈ sortedSet le (membersOfAll ts) ↔ m ∈ ts ∧ isMember m = true := by
    intro m
    rw [mem_sortedSet, hmem]
  -- first through the members in order, whether there is one of them or not
  have hordered : g (unionOf ts) = unionOf ((sortedSet le (membersOfAll ts)).map g) := by
    unfold unionOf
    dsimp only
    rw [if_neg (by rwa [List.contains_iff_mem])]
    split
    · rename_i m heq
      obtain ⟨hm, hmember⟩ := (hsorted m).mp (heq ▸ List.mem_singleton_self m)
      rcases hts m hm with rfl | ⟨-, hform⟩
      · cases hmember
      · rw [heq]
        exact hform.symm
    · exact hunion _
  -- then from these back to all, of which the others are `bottom`
  rw [hordered]
  refine unionOf_congr fun x => ?_
  simp only [mem_membersOfAll, List.mem_map]
  constructor
  · rintro ⟨_, ⟨m, hm, rfl⟩, hx⟩
    exact ⟨g m, ⟨m, ((hsorted m).mp hm).1, rfl⟩, hx⟩
  · rintro ⟨_, ⟨s, hs, rfl⟩, hx⟩
    rcases hts s hs with rfl | ⟨hmember, -⟩
    · have hbottom : g bottom = bottom := (hunion []).trans unionOf_nil
      rw [hbottom] at hx
      cases hx
    · exact ⟨g s, ⟨s, (hsorted s).mpr ⟨hs, hmember⟩, rfl⟩, hx⟩

/-! ## Reversing -/

/-- What a member of a union gives has the form of a union. -/
theorem unionOf_apply (hs : Simplified s) (hmember : isMember s = true) : unionOf [apply h s t] = apply h s t := by
  cases hs with
  | atomic name => exact unionOf_bottom
  | @func a r ha hr =>
    obtain ⟨-, hvalid⟩ : a.isValid = true ∧ r.isValid = true := by simpa [isMember] using hmember
    rw [apply]
    split
    · exact hr.unionOf_singleton hvalid
    · exact unionOf_bottom
  | _ => cases hmember

/-- **Reversing a member of a union** gives `bottom`, if it is no function, and else a member again. -/
theorem reverse_of_isMember (hs : isMember s = true) :
    reverse s = bottom ∧ (∀ h t, apply h s t = bottom) ∨ isMember (reverse s) = true ∧ reverse (reverse s) = s := by
  cases s with
  | atomic name => exact Or.inl ⟨rfl, fun h t => rfl⟩
  | func a r =>
    rw [isMember, Bool.and_comm] at hs
    exact Or.inr ⟨hs, rfl⟩
  | _ => cases hs

variable (h) in
/-- The argument type of a union, through the unions that reversing makes on the way. -/
theorem argType_union (hf : Simplified (union ms)) : argType h (union ms) = unionOf (ms.map (argType h)) := by
  have hreversed : ∀ s ∈ ms.map reverse,
      s = bottom ∨ isMember s = true ∧ unionOf [apply h s top] = apply h s top := by
    intro s hs
    obtain ⟨m, hm, rfl⟩ := List.mem_map.mp hs
    obtain ⟨hsimple, hmember⟩ := hf.of_mem_union hm
    rcases reverse_of_isMember hmember with ⟨hbottom, -⟩ | ⟨hreverse, -⟩
    · exact Or.inl hbottom
    · exact Or.inr ⟨hreverse, unionOf_apply (simplified_reverse hsimple) hreverse⟩
  calc argType h (union ms)
      = apply h (unionOf (ms.map reverse)) top := by rw [argType, reverse_union]
    _ = unionOf ((ms.map reverse).map fun s => apply h s top) := map_unionOf (apply_union h · top) hreversed
    _ = unionOf (ms.map (argType h)) := by
      rw [List.map_map]
      rfl

variable (h) in
/-- **The arguments of the reverse are the results.** What is no function is lost on the way, but has no results
either. -/
theorem argType_reverse (hf : Simplified f) : argType h (reverse f) = retType h f := by
  cases f with
  | top => rfl
  | atomic name => rw [argType, reverse, reverse_bottom, apply_bottom, retType, apply]
  | func a r => rfl
  | union ms =>
    -- a member that has been reversed twice is what it was, or was no function
    have htwice : ∀ m ∈ ms, reverse (reverse m) = bottom ∧ apply h m top = bottom ∨ reverse (reverse m) = m := by
      intro m hm
      rcases reverse_of_isMember (hf.of_mem_union hm).2 with ⟨hbottom, hnone⟩ | ⟨-, hself⟩
      · exact Or.inl ⟨by rw [hbottom, reverse_bottom], hnone h top⟩
      · exact Or.inr hself
    have honce : ∀ s ∈ ms.map reverse, s = bottom ∨ isMember s = true ∧ unionOf [reverse s] = reverse s := by
      intro s hs
      obtain ⟨m, hm, rfl⟩ := List.mem_map.mp hs
      obtain ⟨hsimple, hmember⟩ := hf.of_mem_union hm
      rcases reverse_of_isMember hmember with ⟨hbottom, -⟩ | ⟨hreversed, hself⟩
      · exact Or.inl hbottom
      · have hvalid : m.isValid = true := (isValid_iff m).mpr ⟨m, by simp [members_of_isMember hmember]⟩
        exact Or.inr ⟨hreversed, by rw [hself, hsimple.unionOf_singleton hvalid]⟩
    have hagain : ∀ s ∈ (ms.map reverse).map reverse,
        s = bottom ∨ isMember s = true ∧ unionOf [apply h s top] = apply h s top := by
      intro s hs
      rw [List.map_map] at hs
      obtain ⟨m, hm, rfl⟩ := List.mem_map.mp hs
      rw [Function.comp_apply]
      rcases htwice m hm with ⟨hbottom, -⟩ | hself
      · exact Or.inl hbottom
      · obtain ⟨hsimple, hmember⟩ := hf.of_mem_union hm
        rw [hself]
        exact Or.inr ⟨hmember, unionOf_apply hsimple hmember⟩
    calc argType h (reverse (union ms))
        = apply h (reverse (unionOf (ms.map reverse))) top := by rw [argType, reverse_union]
      _ = apply h (unionOf ((ms.map reverse).map reverse)) top := by rw [map_unionOf reverse_union honce]
      _ = unionOf (((ms.map reverse).map reverse).map fun s => apply h s top) := map_unionOf (apply_union h · top) hagain
      _ = unionOf (ms.map fun m => apply h m top) := by
        rw [List.map_map, List.map_map]
        congr 1
        refine List.map_congr_left fun m hm => ?_
        show apply h (reverse (reverse m)) top = apply h m top
        rcases htwice m hm with ⟨hbottom, hnone⟩ | hself
        · rw [hbottom, hnone, apply_bottom]
        · rw [hself]
      _ = retType h (union ms) := (apply_union h ms top).symm

/-! ## Agreement -/

/-- A single type takes what meets its argument type. -/
theorem isValid_apply_iff_of_not_union (htop : f ≠ top) (hu : ∀ ms, f ≠ union ms) :
    (apply h f t).isValid = true ↔ (meet h (argType h f) t).isValid = true := by
  cases f with
  | top => exact absurd rfl htop
  | union ms => exact absurd rfl (hu ms)
  | atomic name =>
    rw [argType, reverse, apply, apply_bottom]
    exact iff_of_false (by simp) fun hvalid => Bool.false_ne_true (isValid_of_meet h bottom t hvalid).1
  | func a r =>
    rw [argType, reverse, apply, apply, meet_top_right]
    by_cases hr : r.isValid = true
    · rw [if_pos hr]
      by_cases ha : (meet h a t).isValid = true
      · simp [ha, hr]
      · simp [ha]
    · -- a function without results takes nothing
      rw [if_neg hr]
      refine iff_of_false ?_ fun hvalid => ?_
      · split
        · exact hr
        · simp
      · exact Bool.false_ne_true (isValid_of_meet h bottom t hvalid).1

/-- **A function takes what meets its argument type**, unless nothing is known of it. -/
theorem isValid_apply_iff (hf : Simplified f) (ht : Simplified t) (htop : f ≠ top) :
    (apply h f t).isValid = true ↔ (meet h (argType h f) t).isValid = true := by
  by_cases hu : ∃ ms, f = union ms
  · obtain ⟨ms, rfl⟩ := hu
    have hsimple : ∀ s ∈ ms.map (argType h), Simplified s := by
      intro s hs
      obtain ⟨m, hm, rfl⟩ := List.mem_map.mp hs
      exact simplified_argType h (hf.of_mem_union hm).1
    have hsingle : ∀ m ∈ ms, (apply h m t).isValid = true ↔ (meet h (argType h m) t).isValid = true := by
      intro m hm
      have hmember := (hf.of_mem_union hm).2
      refine isValid_apply_iff_of_not_union ?_ ?_
      · rintro rfl
        cases hmember
      · rintro us rfl
        cases hmember
    rw [apply_union, argType_union h hf, isValid_unionOf, isValid_meet_unionOf hsimple ht]
    constructor
    · rintro ⟨_, hs, hvalid⟩
      obtain ⟨m, hm, rfl⟩ := List.mem_map.mp hs
      exact ⟨_, List.mem_map_of_mem hm, (hsingle m hm).mp hvalid⟩
    · rintro ⟨_, hs, hvalid⟩
      obtain ⟨m, hm, rfl⟩ := List.mem_map.mp hs
      exact ⟨_, List.mem_map_of_mem hm, (hsingle m hm).mpr hvalid⟩
  · exact isValid_apply_iff_of_not_union htop (not_exists.mp hu)

/-- **Applying and taking argument types agree.** Over any hierarchy, a type in simplest form other than `top` takes an
argument iff its argument type meets it, and reversing exchanges argument and result types, those of `top` too. -/
theorem apply_agrees_argType (h : Hierarchy) (hf : Simplified f) (ht : Simplified t) :
    (f ≠ top → ((apply h f t).isValid = true ↔ (meet h (argType h f) t).isValid = true)) ∧
      argType h (reverse f) = retType h f ∧ retType h (reverse f) = argType h f :=
  ⟨isValid_apply_iff hf ht, argType_reverse h hf, rfl⟩

/-- A name next to a function from dates to anything and one from cities or countries. -/
def sampleMixed : SemType := union [atomic "city", func date top, func samplePlace int]

theorem apply_agrees_argType_sample :
    Simplified sampleMixed ∧ Simplified samplePlace ∧ sampleMixed ≠ top ∧
      ((apply .standard sampleMixed samplePlace).isValid = true ↔
        (meet .standard (argType .standard sampleMixed) samplePlace).isValid = true) ∧
      argType .standard (reverse sampleMixed) = retType .standard sampleMixed := by
  have hplace : Simplified samplePlace :=
    .union (by simp [Simplified.atomic]) (by decide) (by unfold Before; decide) (by decide)
  have hmixed : Simplified sampleMixed :=
    .union (by
      intro m hm
      simp only [List.mem_cons, List.not_mem_nil, or_false] at hm
      rcases hm with rfl | rfl | rfl
      · exact .atomic _
      · exact .func (.atomic _) .top
      · exact .func hplace (.atomic _))
      (by decide) (by unfold Before; decide) (by decide)
  have hne : sampleMixed ≠ top := by decide
  obtain ⟨hagrees, hreverse, -⟩ := apply_agrees_argType .standard hmixed hplace
  exact ⟨hmixed, hplace, hne, hagrees hne, hreverse⟩

end Parlance.SemType
