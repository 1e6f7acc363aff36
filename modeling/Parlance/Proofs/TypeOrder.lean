import Mathlib.Data.List.Perm.Lattice
import Parlance.Proofs.SortedSets
import Parlance.SemType.Lattice

/-!
# `Proofs.TypeOrder` — the order of types, and unions as sets

Types are put in order only so that a union has one form: two unions with the same members are the same type. That
needs a linear order on types, which follows from the one on names, and the fact that a list in order without
repetitions is known by its members.

## Contents
- **The order.** `compare_eq_iff`, `compare_swap` and `compare_isLE_trans`.
- **Sets in order.** `sortedSet_congr`: what is sorted depends on the members only.
- **Unions.** `unionOf_congr`, and what the members of a union are.
- **Simplified types.** `Simplified`, and `simplified_unionOf`.
-/

namespace Parlance.SemType

/-! ## The order -/

mutual
/-- Only equal types compare as equal. -/
theorem compare_eq_iff (a b : SemType) : compare a b = .eq ↔ a = b := by
  cases a with
  | top => cases b <;> simp [compare]
  | atomic x => cases b <;> simp [compare]
  | func s t =>
    cases b with
    | func u v => simp [compare, Ordering.then_eq_eq, compare_eq_iff s u, compare_eq_iff t v]
    | _ => simp [compare]
  | union as =>
    cases b with
    | union bs => simp [compare, compareLists_eq_iff as bs]
    | _ => simp [compare]
theorem compareLists_eq_iff (as bs : List SemType) : compareLists as bs = .eq ↔ as = bs := by
  cases as with
  | nil => cases bs <;> simp [compareLists]
  | cons a as =>
    cases bs with
    | nil => simp [compareLists]
    | cons b bs =>
      simp [compareLists, Ordering.then_eq_eq, compare_eq_iff a b, compareLists_eq_iff as bs]
end

mutual
/-- The comparison can be turned round. -/
theorem compare_swap (a b : SemType) : (compare a b).swap = compare b a := by
  cases a with
  | top => cases b <;> simp [compare]
  | atomic x =>
    cases b with
    | atomic y =>
      simp only [compare]
      exact Std.OrientedOrd.eq_swap.symm
    | _ => simp [compare]
  | func s t =>
    cases b with
    | func u v => simp [compare, Ordering.swap_then, compare_swap s u, compare_swap t v]
    | _ => simp [compare]
  | union as =>
    cases b with
    | union bs => simp [compare, compareLists_swap as bs]
    | _ => simp [compare]
theorem compareLists_swap (as bs : List SemType) :
    (compareLists as bs).swap = compareLists bs as := by
  cases as with
  | nil => cases bs <;> simp [compareLists]
  | cons a as =>
    cases bs with
    | nil => simp [compareLists]
    | cons b bs =>
      simp [compareLists, Ordering.swap_then, compare_swap a b, compareLists_swap as bs]
end

/-- One comparison after another does not say "greater" iff the first one says "less", or the first one nothing and
the second one not "greater". -/
theorem isLE_then_iff {o p : Ordering} :
    (o.then p).isLE = true ↔ o = .lt ∨ (o = .eq ∧ p.isLE = true) := by
  cases o <;> simp [Ordering.then]

/-- Comparisons of two kinds, one after the other, are transitive if both are. -/
theorem isLE_then_trans {a b c : SemType} {p q r : Ordering}
    (hfirst : (compare a b).isLE = true → (compare b c).isLE = true → (compare a c).isLE = true)
    (hsecond : p.isLE = true → q.isLE = true → r.isLE = true)
    (hab : ((compare a b).then p).isLE = true) (hbc : ((compare b c).then q).isLE = true) :
    ((compare a c).then r).isLE = true := by
  rw [isLE_then_iff] at *
  rcases hab with hab | ⟨hab, hp⟩
  · rcases hbc with hbc | ⟨hbc, -⟩
    · -- neither step is an equation, and so they do not lead back to where they start
      have hle := hfirst (by rw [hab]; rfl) (by rw [hbc]; rfl)
      refine (Ordering.isLE_iff_eq_lt_or_eq_eq.mp hle).imp id fun hac => ?_
      rw [compare_eq_iff] at hac
      rw [← hac, ← compare_swap, hab] at hbc
      cases hbc
    · rw [compare_eq_iff] at hbc
      exact Or.inl (hbc ▸ hab)
  · rw [compare_eq_iff] at hab
    subst hab
    exact hbc.imp id fun h => ⟨h.1, hsecond hp h.2⟩

mutual
/-- **The order is transitive**, by induction on the types. -/
theorem compare_isLE_trans (a b c : SemType) (hab : (compare a b).isLE = true)
    (hbc : (compare b c).isLE = true) : (compare a c).isLE = true := by
  cases a with
  | top => cases c <;> simp [compare]
  | atomic x =>
    cases b with
    | top => simp [compare] at hab
    | atomic y =>
      cases c with
      | atomic z =>
        simp only [compare] at *
        exact Std.TransOrd.isLE_trans hab hbc
      | _ => simp_all [compare]
    | _ => cases c <;> simp_all [compare]
  | func s t =>
    cases b with
    | func u v =>
      cases c with
      | func w x =>
        simp only [compare] at *
        exact isLE_then_trans (compare_isLE_trans s u w) (compare_isLE_trans t v x) hab hbc
      | _ => simp_all [compare]
    | union bs => cases c <;> simp_all [compare]
    | _ => simp [compare] at hab
  | union as =>
    cases b with
    | union bs =>
      cases c with
      | union cs =>
        simp only [compare] at *
        exact compareLists_isLE_trans as bs cs hab hbc
      | _ => simp_all [compare]
    | _ => simp [compare] at hab
theorem compareLists_isLE_trans (as bs cs : List SemType) (hab : (compareLists as bs).isLE = true)
    (hbc : (compareLists bs cs).isLE = true) : (compareLists as cs).isLE = true := by
  cases as with
  | nil => cases cs <;> simp [compareLists]
  | cons a as =>
    cases bs with
    | nil => simp [compareLists] at hab
    | cons b bs =>
      cases cs with
      | nil => simp [compareLists] at hbc
      | cons c cs =>
        simp only [compareLists] at *
        exact isLE_then_trans (compare_isLE_trans a b c) (compareLists_isLE_trans as bs cs) hab hbc
end

theorem le_iff {a b : SemType} : le a b = true ↔ (compare a b).isLE = true := by
  unfold le
  cases compare a b <;> decide

theorem le_trans {a b c : SemType} (hab : le a b = true) (hbc : le b c = true) : le a c = true := by
  rw [le_iff] at *
  exact compare_isLE_trans a b c hab hbc

theorem le_total (a b : SemType) : (le a b || le b a) = true := by
  unfold le
  rw [← compare_swap a b]
  cases compare a b <;> decide

theorem le_antisymm {a b : SemType} (hab : le a b = true) (hba : le b a = true) : a = b := by
  rw [le_iff, Ordering.isLE_iff_eq_lt_or_eq_eq] at hab
  rcases hab with hab | hab
  · rw [le_iff, ← compare_swap a b, hab] at hba
    cases hba
  · exact (compare_eq_iff a b).mp hab

/-! ## Sets in order -/

/-- Whether a type comes before another one. -/
def Before (a b : SemType) : Prop := le a b = true ∧ a ≠ b

/-- Sorting leaves each type once, before all that are greater. -/
theorem pairwise_sortedSet (l : List SemType) : (sortedSet le l).Pairwise Before := by
  have htrans : ∀ a b c, le a b = true → le b c = true → le a c = true := fun _ _ _ => le_trans
  exact pairwise_dropRepeats (fun _ _ => le_antisymm) (List.pairwise_mergeSort htrans le_total l)

/-- A list in order without repetitions is known by its members. -/
theorem eq_of_mem_iff {l l' : List SemType} (hl : l.Pairwise Before) (hl' : l'.Pairwise Before)
    (h : ∀ t, t ∈ l ↔ t ∈ l') : l = l' := by
  have hnodup : ∀ {l : List SemType}, l.Pairwise Before → l.Nodup := fun hl => hl.imp And.right
  refine ((List.perm_ext_iff_of_nodup (hnodup hl) (hnodup hl')).mpr h).eq_of_pairwise ?_ hl hl'
  exact fun a b _ _ hab hba => le_antisymm hab.1 hba.1

/-- Sorted sets of the same types are the same. -/
theorem sortedSet_congr {l l' : List SemType} (h : ∀ t, t ∈ l ↔ t ∈ l') :
    sortedSet le l = sortedSet le l' :=
  eq_of_mem_iff (pairwise_sortedSet l) (pairwise_sortedSet l') fun t => by simpa using h t

/-! ## Unions -/

theorem mem_membersOfAll {t : SemType} {types : List SemType} :
    t ∈ membersOfAll types ↔ ∃ s ∈ types, t ∈ members s := by
  induction types with
  | nil => simp [membersOfAll]
  | cons s rest ih => simp [membersOfAll, ih]

/-- Whether a type can stand next to others in a union: an atomic type, or a valid function. -/
def isMember : SemType → Bool
  | atomic _ => true
  | func a r => isValid a && isValid r
  | _ => false

theorem members_of_isMember {t : SemType} (h : isMember t = true) : members t = [t] := by
  cases t with
  | atomic name => rfl
  | func a r => exact if_pos h
  | _ => cases h

mutual
/-- A member of a type is `top`, or it can stand next to others in a union. -/
theorem eq_top_or_isMember {t : SemType} (s : SemType) (h : t ∈ members s) :
    t = top ∨ isMember t = true := by
  cases s with
  | top => exact Or.inl (List.mem_singleton.mp h)
  | atomic name => exact Or.inr (List.mem_singleton.mp h ▸ rfl)
  | func a r =>
    rw [members] at h
    split at h
    · rename_i hvalid
      exact Or.inr (List.mem_singleton.mp h ▸ hvalid)
    · cases h
  | union ts => exact eq_top_or_isMember_of_all ts h
theorem eq_top_or_isMember_of_all {t : SemType} (ts : List SemType) (h : t ∈ membersOfAll ts) :
    t = top ∨ isMember t = true := by
  cases ts with
  | nil => cases h
  | cons s rest =>
    rcases List.mem_append.mp h with h | h
    · exact eq_top_or_isMember s h
    · exact eq_top_or_isMember_of_all rest h
end

/-- What is a member of a type has no other member than itself. -/
theorem members_of_mem {t s : SemType} (h : t ∈ members s) : members t = [t] := by
  rcases eq_top_or_isMember s h with rfl | h
  · rfl
  · exact members_of_isMember h

theorem members_of_mem_membersOfAll {t : SemType} {ts : List SemType} (h : t ∈ membersOfAll ts) :
    members t = [t] :=
  members_of_mem (s := union ts) h

mutual
/-- A type is valid iff it has a member. -/
theorem isValid_iff (t : SemType) : isValid t = true ↔ ∃ m, m ∈ members t := by
  cases t with
  | top => simp [isValid, members]
  | atomic name => simp [isValid, members]
  | func a r => by_cases h : (isValid a && isValid r) = true <;> simp [isValid, members, h]
  | union ts => exact anyValid_iff ts
theorem anyValid_iff (ts : List SemType) : anyValid ts = true ↔ ∃ m, m ∈ membersOfAll ts := by
  cases ts with
  | nil => simp [anyValid, membersOfAll]
  | cons t rest =>
    simp [anyValid, membersOfAll, isValid_iff t, anyValid_iff rest, exists_or]
end

/-- **Unions of the same members** are the same type. -/
theorem unionOf_congr {types types' : List SemType}
    (h : ∀ t, t ∈ membersOfAll types ↔ t ∈ membersOfAll types') : unionOf types = unionOf types' := by
  have htop : (membersOfAll types).contains top = (membersOfAll types').contains top := by
    rw [Bool.eq_iff_iff, List.contains_iff_mem, List.contains_iff_mem, h]
  unfold unionOf
  dsimp only
  rw [htop, sortedSet_congr h]

/-- A union with `top` in it is `top`. -/
theorem unionOf_of_mem_top {types : List SemType} (h : top ∈ membersOfAll types) :
    unionOf types = top := by
  unfold unionOf
  dsimp only
  rw [if_pos (List.contains_iff_mem.mpr h)]

/-- The members of a union, unless `top` is one of them. -/
theorem mem_members_unionOf {t : SemType} {types : List SemType} (h : top ∉ membersOfAll types) :
    t ∈ members (unionOf types) ↔ t ∈ membersOfAll types := by
  have hsorted : ∀ {s}, s ∈ sortedSet le (membersOfAll types) ↔ s ∈ membersOfAll types := mem_sortedSet
  unfold unionOf
  dsimp only
  rw [if_neg (by rwa [List.contains_iff_mem])]
  split
  · rename_i s heq
    rw [heq] at hsorted
    rw [members_of_mem_membersOfAll (hsorted.mp List.mem_cons_self)]
    exact hsorted
  · show t ∈ membersOfAll _ ↔ _
    rw [mem_membersOfAll]
    constructor
    · rintro ⟨s, hs, ht⟩
      have hmem := hsorted.mp hs
      rw [members_of_mem_membersOfAll hmem, List.mem_singleton] at ht
      exact ht ▸ hmem
    · intro ht
      refine ⟨t, hsorted.mpr ht, ?_⟩
      rw [members_of_mem_membersOfAll ht]
      exact List.mem_singleton_self t

/-- `top` is a member of a union if it is one of a part, and only then. -/
theorem top_mem_members_unionOf {types : List SemType} :
    top ∈ members (unionOf types) ↔ top ∈ membersOfAll types := by
  by_cases h : top ∈ membersOfAll types
  · rw [unionOf_of_mem_top h]
    exact iff_of_true (List.mem_singleton_self _) h
  · exact mem_members_unionOf h

/-- A union is valid iff one of the types that it unites is. -/
theorem isValid_unionOf {types : List SemType} :
    isValid (unionOf types) = true ↔ ∃ t ∈ types, isValid t = true := by
  have hall : isValid (unionOf types) = true ↔ ∃ m, m ∈ membersOfAll types := by
    by_cases h : top ∈ membersOfAll types
    · rw [unionOf_of_mem_top h]
      exact iff_of_true rfl ⟨top, h⟩
    · rw [isValid_iff]
      exact exists_congr fun m => mem_members_unionOf h
  simp only [hall, mem_membersOfAll, isValid_iff]
  exact ⟨fun ⟨m, t, ht, hm⟩ => ⟨t, ht, m, hm⟩, fun ⟨t, ht, m, hm⟩ => ⟨m, t, ht, hm⟩⟩

/-! ## Simplified types -/

/-- **The simplest form of types**: the members of each union are in order, none of them is a union itself, `top`
or invalid, and a union does not have a single one. -/
inductive Simplified : SemType → Prop
  | top : Simplified top
  | atomic (name : String) : Simplified (atomic name)
  | func {a r : SemType} : Simplified a → Simplified r → Simplified (func a r)
  | union {ms : List SemType} : (∀ m ∈ ms, Simplified m) → (∀ m ∈ ms, isMember m = true) →
      ms.Pairwise Before → ms.length ≠ 1 → Simplified (union ms)

theorem simplified_bottom : Simplified bottom := .union (by simp) (by simp) .nil (by simp)

theorem membersOfAll_of_isMember {ms : List SemType} (h : ∀ m ∈ ms, isMember m = true) :
    membersOfAll ms = ms := by
  induction ms with
  | nil => rfl
  | cons m rest ih =>
    rw [membersOfAll, members_of_isMember (h m List.mem_cons_self),
      ih fun m hm => h m (List.mem_cons_of_mem _ hm)]
    rfl

/-- The members of a union in its simplest form are the types that it is made of. -/
theorem members_union {ms : List SemType} (h : Simplified (union ms)) : members (union ms) = ms := by
  cases h with
  | union _ hmember => exact membersOfAll_of_isMember hmember

theorem Simplified.of_mem_members {t s : SemType} (hs : Simplified s) (h : t ∈ members s) :
    Simplified t := by
  cases s with
  | union ms =>
    rw [members_union hs] at h
    cases hs with
    | union hms => exact hms t h
  | func a r =>
    rw [members] at h
    split at h
    · exact List.mem_singleton.mp h ▸ hs
    · cases h
  | _ => exact List.mem_singleton.mp h ▸ hs

/-- Of the types in simplest form only `top` has `top` for a member. -/
theorem Simplified.eq_top {s : SemType} (hs : Simplified s) (h : SemType.top ∈ members s) :
    s = SemType.top := by
  cases s with
  | top => rfl
  | union ms =>
    rw [members_union hs] at h
    cases hs with
    | union _ hmember => cases hmember _ h
  | func a r =>
    rw [members] at h
    split at h <;> cases h
    contradiction
  | atomic name => cases h; contradiction

/-- **Unions of types in simplest form** are in simplest form. -/
theorem simplified_unionOf {types : List SemType} (h : ∀ t ∈ types, Simplified t) :
    Simplified (unionOf types) := by
  have hmember : ∀ t ∈ membersOfAll types, Simplified t := fun t ht => by
    obtain ⟨s, hs, ht⟩ := mem_membersOfAll.mp ht
    exact (h s hs).of_mem_members ht
  by_cases htop : top ∈ membersOfAll types
  · rw [unionOf_of_mem_top htop]
    exact .top
  · unfold unionOf
    dsimp only
    rw [if_neg (by rwa [List.contains_iff_mem])]
    have hsorted : ∀ {t}, t ∈ sortedSet le (membersOfAll types) ↔ t ∈ membersOfAll types := mem_sortedSet
    split
    · rename_i t heq
      exact hmember t (hsorted.mp (heq ▸ List.mem_cons_self))
    · rename_i hne
      refine .union (fun t ht => hmember t (hsorted.mp ht)) (fun t ht => ?_) (pairwise_sortedSet _)
        fun hlen => ?_
      · refine (eq_top_or_isMember_of_all types (hsorted.mp ht)).resolve_left ?_
        rintro rfl
        exact htop (hsorted.mp ht)
      · obtain ⟨t, ht⟩ := List.length_eq_one_iff.mp hlen
        exact hne t ht

/-- What has been united does not change when it is united again. -/
theorem unionOf_unionOf (types : List SemType) : unionOf [unionOf types] = unionOf types := by
  have hmembers : ∀ t, membersOfAll [t] = members t := fun t => List.append_nil _
  by_cases htop : top ∈ membersOfAll types
  · rw [unionOf_of_mem_top htop]
    rfl
  · refine unionOf_congr fun t => ?_
    rw [hmembers, mem_members_unionOf htop]

end Parlance.SemType
