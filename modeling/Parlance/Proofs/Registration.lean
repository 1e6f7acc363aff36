import Mathlib.Data.List.Induction
import Parlance.SemType.Hierarchy

/-!
# `Proofs.Registration` — what a hierarchy learns and forgets

A type that was never registered has three supertypes that no table lists: itself, entities, and everything. The
first supertype that is registered for it takes their place. So registering a type as one of entities loses nothing,
and neither does a further supertype of a type that is registered already; but the first supertype of a type, if it is
registered by itself, is from then on the only one, and the type no longer lies below itself unless that is said too.

## Contents
- **Pairs.** `Lists`, a hierarchy as the list of what was registered, and `Lists.isSubtype_iff`.
- **Registrations.** `Registration`, `after`, `told`; `lists_after`.
- **What is kept.** `isSubtype_after`.
-/

namespace Parlance.Hierarchy

/-! ## Pairs -/

/-- **Just the given pairs were registered**: the types with an entry are those that have a pair, and the entry is the
set of what they are paired with. -/
structure Lists (h : Hierarchy) (pairs : List (String × String)) : Prop where
  known {sub : String} {sups : List String} : h.supers.get? sub = some sups →
    sups ≠ [] ∧ ∀ sup, sup ∈ sups ↔ (sub, sup) ∈ pairs
  unknown {sub : String} : h.supers.get? sub = none → ∀ sup, (sub, sup) ∉ pairs

variable {h : Hierarchy} {pairs : List (String × String)}

theorem lists_bare : Lists bare [] where
  known h := by cases h
  unknown _ _ := List.not_mem_nil

/-- An entry lists what its type is paired with; without an entry there is no pair. -/
theorem Lists.mem_entry (hl : Lists h pairs) {sub sup : String} :
    sup ∈ (h.supers.get? sub).getD [] ↔ (sub, sup) ∈ pairs := by
  cases hget : h.supers.get? sub with
  | none => simpa using hl.unknown hget sup
  | some sups => exact (hl.known hget).2 sup

/-- A supertype that is listed already is not listed again. -/
theorem mem_listed {sups : List String} {sup x : String} :
    x ∈ (if sups.contains sup then sups else sups ++ [sup]) ↔ x ∈ sups ∨ x = sup := by
  split
  case isTrue hsup =>
    rw [List.contains_iff_mem] at hsup
    refine ⟨.inl, ?_⟩
    rintro (hx | rfl)
    · exact hx
    · exact hsup
  case isFalse => simp

/-- One more pair is registered. -/
theorem Lists.addSupertype (hl : Lists h pairs) (sub sup : String) :
    Lists (h.addSupertype sub sup) (pairs ++ [(sub, sup)]) := by
  constructor
  case known =>
    intro s sups hs
    unfold Hierarchy.addSupertype at hs
    by_cases hsub : s = sub
    · subst hsub
      rw [Table.get?_update_self] at hs
      obtain rfl := Option.some.inj hs
      refine ⟨List.ne_nil_of_mem (mem_listed.mpr (.inr rfl)), fun x => mem_listed.trans ?_⟩
      simp [hl.mem_entry]
    · rw [Table.get?_update_of_ne _ hsub] at hs
      simpa [hsub] using hl.known hs
  case unknown =>
    intro s hs
    unfold Hierarchy.addSupertype at hs
    by_cases hsub : s = sub
    · subst hsub
      rw [Table.get?_update_self] at hs
      cases hs
    · rw [Table.get?_update_of_ne _ hsub] at hs
      simpa [hsub] using hl.unknown hs

/-- Registers several pairs. -/
def addAll (h : Hierarchy) (pairs : List (String × String)) : Hierarchy :=
  pairs.foldl (fun h pair => h.addSupertype pair.1 pair.2) h

theorem Lists.addAll (hl : Lists h pairs) (more : List (String × String)) :
    Lists (h.addAll more) (pairs ++ more) := by
  induction more generalizing h pairs with
  | nil => rwa [List.append_nil]
  | cons pair rest ih =>
    rw [List.append_cons]
    exact ih (hl.addSupertype pair.1 pair.2)

/-- Types that have a pair lie below what they are paired with only, the others below what no table lists. -/
theorem Lists.isSubtype_iff (hl : Lists h pairs) (sub sup : String) : h.isSubtype sub sup = true ↔
    (sub, sup) ∈ pairs ∨ (∀ other, (sub, other) ∉ pairs) ∧ sup ∈ implicit sub := by
  unfold isSubtype
  cases hget : h.supers.get? sub with
  | none =>
    have hnot := hl.unknown hget
    simp [hnot, implicit, or_assoc]
  | some sups =>
    obtain ⟨hne, hmem⟩ := hl.known hget
    obtain ⟨other, hother⟩ := List.exists_mem_of_ne_nil sups hne
    have hlisted : ¬ ∀ other, (sub, other) ∉ pairs := fun h => h other ((hmem other).mp hother)
    simp [hlisted, hmem]

/-! ## Registrations -/

/-- What callers may register. -/
inductive Registration where
  /-- A type and a supertype of it. -/
  | supertype (sub sup : String)
  /-- A type of entities. -/
  | entity (t : String)

namespace Registration

/-- The type that is registered. -/
def subject : Registration → String
  | supertype sub _ => sub
  | entity t => t

/-- What it is said to lie below. -/
def links : Registration → List (String × String)
  | supertype sub sup => [(sub, sup)]
  | entity t => [(t, t), (t, Relation.entity), (t, Relation.any)]

theorem eq_subject {r : Registration} {sub sup : String} (h : (sub, sup) ∈ r.links) : sub = r.subject := by
  cases r with
  | supertype s t => exact (Prod.mk.inj (List.mem_singleton.mp h)).1
  | entity t =>
    simp only [links, List.mem_cons, Prod.mk.injEq, List.not_mem_nil, or_false] at h
    rcases h with ⟨h, -⟩ | ⟨h, -⟩ | ⟨h, -⟩ <;> exact h

end Registration

/-- Registers a type. -/
def register (h : Hierarchy) : Registration → Hierarchy
  | .supertype sub sup => h.addSupertype sub sup
  | .entity t => h.addEntity t

/-- **The hierarchy after some registrations**, from the standard one on. -/
def after (rs : List Registration) : Hierarchy := rs.foldl register standard

/-- The pairs of the standard hierarchy. -/
def standardPairs : List (String × String) :=
  builtin.flatMap (fun t => [(t, t), (t, Relation.any)]) ++
    [(Relation.int, Relation.number), (Relation.float, Relation.number)]

/-- All pairs that were registered, the standard ones included. -/
def told (rs : List Registration) : List (String × String) := standardPairs ++ rs.flatMap Registration.links

/-- Whether a type was registered, with any supertype. -/
def IsListed (rs : List Registration) (t : String) : Prop := ∃ sup, (t, sup) ∈ told rs

theorem register_eq_addAll (h : Hierarchy) (r : Registration) : h.register r = h.addAll r.links := by
  cases r <;> rfl

theorem lists_standard : Lists standard standardPairs := lists_bare.addAll standardPairs

theorem told_concat (rs : List Registration) (r : Registration) : told (rs ++ [r]) = told rs ++ r.links := by
  simp [told]

theorem after_concat (rs : List Registration) (r : Registration) : after (rs ++ [r]) = (after rs).register r := by
  simp [after]

/-- **A hierarchy lists what was registered**, whatever was registered in whatever order. -/
theorem lists_after (rs : List Registration) : Lists (after rs) (told rs) := by
  induction rs using List.reverseRecOn with
  | nil => simpa [told, after] using lists_standard
  | append_singleton rs r ih =>
    rw [after_concat, told_concat, register_eq_addAll]
    exact ih.addAll r.links

/-! ## What is kept -/

theorem isSubtype_after_iff (rs : List Registration) (sub sup : String) : (after rs).isSubtype sub sup = true ↔
    (sub, sup) ∈ told rs ∨ ¬ IsListed rs sub ∧ sup ∈ implicit sub := by
  rw [(lists_after rs).isSubtype_iff, IsListed, not_exists]

/-- The first supertype of a type, registered by itself, makes it lose one of those that it had. -/
theorem exists_lost {rs : List Registration} {sub : String} (hnew : ¬ IsListed rs sub) (sup : String) :
    ∃ old, (after rs).isSubtype sub old = true ∧
      ¬ (after (rs ++ [.supertype sub sup])).isSubtype sub old = true := by
  -- of the two supertypes besides itself at most one is the new one
  have hold : ∃ old ∈ implicit sub, old ≠ sup := by
    by_cases hentity : Relation.entity = sup
    · exact ⟨Relation.any, by simp [implicit], hentity ▸ by decide⟩
    · exact ⟨Relation.entity, by simp [implicit], hentity⟩
  obtain ⟨old, hmem, hne⟩ := hold
  refine ⟨old, (isSubtype_after_iff rs sub old).mpr (.inr ⟨hnew, hmem⟩), ?_⟩
  rw [isSubtype_after_iff, IsListed, told_concat]
  rintro (hsaid | ⟨hunlisted, -⟩)
  · rcases List.mem_append.mp hsaid with hsaid | hsaid
    · exact hnew ⟨old, hsaid⟩
    · exact hne (Prod.mk.inj (List.mem_singleton.mp hsaid)).2
  · exact hunlisted ⟨sup, List.mem_append_right _ (List.mem_singleton_self _)⟩

/-- What is said of a registered type, or of a type of entities, takes nothing away. -/
theorem isSubtype_concat {rs : List Registration} {r : Registration} {sub sup : String}
    (hr : IsListed rs r.subject ∨ ∃ t, r = .entity t) (h : (after rs).isSubtype sub sup = true) :
    (after (rs ++ [r])).isSubtype sub sup = true := by
  rw [isSubtype_after_iff, told_concat, List.mem_append]
  rcases (isSubtype_after_iff rs sub sup).mp h with h | ⟨hnew, himplicit⟩
  · exact .inl (.inl h)
  · by_cases hsub : sub = r.subject
    · rcases hr with hr | ⟨t, rfl⟩
      · exact absurd (hsub ▸ hr) hnew
      · -- a type of entities is given all supertypes that it had
        obtain rfl : sub = t := hsub
        exact .inl (.inr (by simpa [implicit, Registration.links] using himplicit))
    · refine .inr ⟨?_, himplicit⟩
      rintro ⟨other, hother⟩
      rw [told_concat, List.mem_append] at hother
      rcases hother with hother | hother
      · exact hnew ⟨other, hother⟩
      · exact hsub (Registration.eq_subject hother)

/-- **What registering does.** After any registrations the registered types lie below what was registered for them,
and the others below themselves, entities and everything. So a type lies below itself iff that was registered, in case
that anything was registered for it. And a further registration keeps all that was known iff its type is registered
already or it is one of a type of entities. -/
theorem isSubtype_after (rs : List Registration) :
    (∀ sub sup, (after rs).isSubtype sub sup = true ↔
      (sub, sup) ∈ told rs ∨ ¬ IsListed rs sub ∧ sup ∈ implicit sub) ∧
    (∀ t, (after rs).isSubtype t t = true ↔ (IsListed rs t → (t, t) ∈ told rs)) ∧
    ∀ r, (∀ sub sup, (after rs).isSubtype sub sup = true → (after (rs ++ [r])).isSubtype sub sup = true) ↔
      (IsListed rs r.subject ∨ ∃ t, r = .entity t) := by
  refine ⟨isSubtype_after_iff rs, ?reflexive, ?monotone⟩
  case reflexive =>
    intro t
    have himplicit : t ∈ implicit t := List.mem_cons_self
    rw [isSubtype_after_iff]
    constructor
    · rintro (h | ⟨hunlisted, -⟩) hlisted
      · exact h
      · exact absurd hlisted hunlisted
    · intro h
      by_cases hlisted : IsListed rs t
      · exact .inl (h hlisted)
      · exact .inr ⟨hlisted, himplicit⟩
  case monotone =>
    intro r
    refine ⟨fun h => ?_, fun hr sub sup => isSubtype_concat hr⟩
    cases r with
    | entity t => exact .inr ⟨t, rfl⟩
    | supertype sub sup =>
      by_contra hnew
      obtain ⟨old, hbefore, hafter⟩ := exists_lost (fun hlisted => hnew (.inl hlisted)) sup
      exact hafter (h sub old hbefore)

/-- **Registering may take away**: a city is a city, but no longer when it was said to be a place. -/
theorem isSubtype_after_not :
    (¬ ∀ rs t, (after rs).isSubtype t t = true) ∧
      ¬ ∀ rs r sub sup, (after rs).isSubtype sub sup = true → (after (rs ++ [r])).isSubtype sub sup = true := by
  have hbefore : (after []).isSubtype "city" "city" = true := by decide
  have hafter : (after [.supertype "city" "place"]).isSubtype "city" "city" = false := by decide
  constructor
  · intro h
    rw [h] at hafter
    cases hafter
  · intro h
    have hkept := h [] (.supertype "city" "place") "city" "city" hbefore
    rw [List.nil_append, hafter] at hkept
    cases hkept

end Parlance.Hierarchy
