import Parlance.Proofs.TypeOrder

/-!
# `Proofs.Meet` — meeting types, in any order

The meet of two types is made out of the meets of their members, each with each, and two members meet in at most
one type. So the laws of the meet come down to members: atomic types meet as the names do in the hierarchy, where
the names above another one form a chain, and functions meet by their arguments and results. What is left is to see
that a meet has the simplest form, for types in that form with the same members are the same.

## Contents
- **Hierarchies.** `Hierarchy.IsForest`, which `Hierarchy.standard` is.
- **Members of a meet.** `mem_members_meet_left` and `mem_members_meet_right`; members tell what is met, by
  `eq_of_members`.
- **Laws.** Commutativity, associativity, and folds over lists of types.
-/

namespace Parlance

/-! ## Hierarchies -/

/-- **Hierarchies in which names lie below each other in chains**: a partial order, and of two names above a third
one, one lies below the other. -/
structure Hierarchy.IsForest (h : Hierarchy) : Prop where
  refl : ∀ a, h.isSubtype a a = true
  trans : ∀ a b c, h.isSubtype a b = true → h.isSubtype b c = true → h.isSubtype a c = true
  antisymm : ∀ a b, h.isSubtype a b = true → h.isSubtype b a = true → a = b
  chain : ∀ a b c, h.isSubtype a b = true → h.isSubtype a c = true →
    h.isSubtype b c = true ∨ h.isSubtype c b = true

/-- What lies below what from the start. -/
theorem Hierarchy.isSubtype_standard_iff {a b : String} :
    standard.isSubtype a b = true ↔
      b = a ∨ b = Relation.any ∨ (b = Relation.number ∧ (a = Relation.int ∨ a = Relation.float)) ∨
        (b = Relation.entity ∧ a ∉ builtin) := by
  have hsupers : standard.supers = ⟨[
      (Relation.boolean, [Relation.boolean, Relation.any]),
      (Relation.int, [Relation.int, Relation.any, Relation.number]),
      (Relation.float, [Relation.float, Relation.any, Relation.number]),
      (Relation.date, [Relation.date, Relation.any]),
      (Relation.text, [Relation.text, Relation.any]),
      (Relation.number, [Relation.number, Relation.any]),
      (Relation.entity, [Relation.entity, Relation.any]),
      (Relation.any, [Relation.any])]⟩ := by rfl
  unfold isSubtype
  rw [hsupers]
  by_cases hmem : a ∈ builtin
  · simp only [builtin, List.mem_cons, List.not_mem_nil, or_false] at hmem
    rcases hmem with rfl | rfl | rfl | rfl | rfl | rfl | rfl | rfl <;>
      simp [Table.get?, Table.find, Relation.boolean, Relation.int, Relation.float, Relation.date,
        Relation.text, Relation.number, Relation.entity, Relation.any, builtin]
  · have hnot := hmem
    simp only [builtin, List.mem_cons, List.not_mem_nil, or_false, not_or] at hnot
    have hfind : ∀ {k : String}, ¬ a = k → (k == a) = false := fun hk => by simpa using Ne.symm hk
    obtain ⟨h1, h2, h3, h4, h5, h6, h7, h8⟩ := hnot
    simp only [Table.get?, Table.find, hfind h1, hfind h2, hfind h3, hfind h4, hfind h5, hfind h6, hfind h7,
      hfind h8, Bool.false_eq_true, if_false, Bool.or_eq_true, beq_iff_eq]
    constructor
    · rintro ((h | h) | h)
      · exact Or.inl h
      · exact Or.inr (Or.inr (Or.inr ⟨h, hmem⟩))
      · exact Or.inr (Or.inl h)
    · rintro (h | h | ⟨-, h | h⟩ | ⟨h, -⟩)
      · exact Or.inl (Or.inl h)
      · exact Or.inr h
      · exact absurd h h2
      · exact absurd h h3
      · exact Or.inl (Or.inr h)

/-- Above the names that others lie below there is at most the one above all. -/
theorem Hierarchy.eq_or_eq_any {a b : String}
    (ha : a = Relation.any ∨ a = Relation.number ∨ a = Relation.entity)
    (h : standard.isSubtype a b = true) : b = a ∨ b = Relation.any := by
  rcases isSubtype_standard_iff.mp h with h | h | ⟨-, h⟩ | ⟨-, h⟩
  · exact Or.inl h
  · exact Or.inr h
  · rcases ha with rfl | rfl | rfl <;> exact absurd h (by decide)
  · rcases ha with rfl | rfl | rfl <;> exact absurd (by decide) h

/-- The names that are known from the start form a forest, together with all that are not. -/
theorem Hierarchy.isForest_standard : standard.IsForest where
  refl a := isSubtype_standard_iff.mpr (Or.inl rfl)
  trans a b c hab hbc := by
    rw [isSubtype_standard_iff] at hab ⊢
    rcases hab with rfl | rfl | ⟨rfl, hab⟩ | ⟨rfl, hab⟩
    · exact isSubtype_standard_iff.mp hbc
    · rcases eq_or_eq_any (Or.inl rfl) hbc with rfl | rfl <;> exact Or.inr (Or.inl rfl)
    · rcases eq_or_eq_any (Or.inr (Or.inl rfl)) hbc with rfl | rfl
      · exact Or.inr (Or.inr (Or.inl ⟨rfl, hab⟩))
      · exact Or.inr (Or.inl rfl)
    · rcases eq_or_eq_any (Or.inr (Or.inr rfl)) hbc with rfl | rfl
      · exact Or.inr (Or.inr (Or.inr ⟨rfl, hab⟩))
      · exact Or.inr (Or.inl rfl)
  antisymm a b hab hba := by
    rcases isSubtype_standard_iff.mp hab with rfl | rfl | ⟨rfl, ha⟩ | ⟨rfl, ha⟩
    · rfl
    · exact (eq_or_eq_any (Or.inl rfl) hba).elim id id
    · rcases eq_or_eq_any (Or.inr (Or.inl rfl)) hba with rfl | rfl
      · rfl
      · exact absurd ha (by decide)
    · rcases eq_or_eq_any (Or.inr (Or.inr rfl)) hba with rfl | rfl
      · rfl
      · exact absurd (by decide) ha
  chain a b c hab hac := by
    rcases isSubtype_standard_iff.mp hab with rfl | rfl | ⟨rfl, hb⟩ | ⟨rfl, hb⟩
    · exact Or.inl hac
    · exact Or.inr (isSubtype_standard_iff.mpr (Or.inr (Or.inl rfl)))
    · rcases isSubtype_standard_iff.mp hac with rfl | rfl | ⟨rfl, -⟩ | ⟨-, hc⟩
      · exact Or.inr hab
      · exact Or.inl (isSubtype_standard_iff.mpr (Or.inr (Or.inl rfl)))
      · exact Or.inl (isSubtype_standard_iff.mpr (Or.inl rfl))
      · exact absurd (by rcases hb with rfl | rfl <;> decide) hc
    · rcases isSubtype_standard_iff.mp hac with rfl | rfl | ⟨-, hc⟩ | ⟨rfl, -⟩
      · exact Or.inr hab
      · exact Or.inl (isSubtype_standard_iff.mpr (Or.inr (Or.inl rfl)))
      · exact absurd (by rcases hc with rfl | rfl <;> decide) hb
      · exact Or.inl (isSubtype_standard_iff.mpr (Or.inl rfl))

namespace SemType

variable {h : Hierarchy} {a b c : SemType}

/-! ## Members of a meet -/

@[simp] theorem meet_top_left (h : Hierarchy) (t : SemType) : meet h top t = t := by
  rw [meet]

@[simp] theorem meet_top_right (h : Hierarchy) (t : SemType) : meet h t top = t := by
  cases t <;> simp [meet]

theorem meet_union_left (h : Hierarchy) (ms : List SemType) {t : SemType} (ht : t ≠ top) :
    meet h (union ms) t = unionOf (ms.map fun m => meet h m t) := by
  rw [meet]
  exact ht

theorem meet_union_right (h : Hierarchy) {t : SemType} (ms : List SemType) (ht : t ≠ top)
    (hu : ∀ ns, t ≠ union ns) : meet h t (union ms) = unionOf (ms.map fun m => meet h t m) := by
  cases t with
  | top => exact absurd rfl ht
  | union ns => exact absurd rfl (hu ns)
  | _ => rw [meet] <;> simp

theorem meet_atomic (h : Hierarchy) (a b : String) :
    meet h (atomic a) (atomic b) =
      if h.isSubtype a b then atomic a else if h.isSubtype b a then atomic b else bottom := by
  rw [meet]

theorem meet_func (h : Hierarchy) (a r b s : SemType) :
    meet h (func a r) (func b s) =
      if (meet h a b).isValid && (meet h r s).isValid then func (meet h a b) (meet h r s) else bottom := by
  rw [meet]

@[simp] theorem meet_atomic_func (h : Hierarchy) (a : String) (b s : SemType) :
    meet h (atomic a) (func b s) = bottom := by
  rw [meet]

@[simp] theorem meet_func_atomic (h : Hierarchy) (a r : SemType) (b : String) :
    meet h (func a r) (atomic b) = bottom := by
  rw [meet]

/-- **Only valid types meet** in a valid type. -/
theorem isValid_of_meet (h : Hierarchy) (a b : SemType) (hab : (meet h a b).isValid = true) :
    a.isValid = true ∧ b.isValid = true := by
  induction a, b using meet.induct h with
  | case1 t => exact ⟨rfl, by simpa using hab⟩
  | case2 t _ => exact ⟨by simpa using hab, rfl⟩
  | case3 ms t ht ih =>
    rw [meet_union_left h ms ht, isValid_unionOf] at hab
    obtain ⟨u, hu, hvalid⟩ := hab
    obtain ⟨m, hm, rfl⟩ := List.mem_map.mp hu
    obtain ⟨hv, ht⟩ := ih m hm hvalid
    refine ⟨?_, ht⟩
    obtain ⟨x, hx⟩ := (isValid_iff m).mp hv
    exact (isValid_iff (union ms)).mpr ⟨x, mem_membersOfAll.mpr ⟨m, hm, hx⟩⟩
  | case4 t ms ht hu ih =>
    rw [meet_union_right h ms ht hu, isValid_unionOf] at hab
    obtain ⟨u, hu, hvalid⟩ := hab
    obtain ⟨m, hm, rfl⟩ := List.mem_map.mp hu
    obtain ⟨ht, hv⟩ := ih m hm hvalid
    refine ⟨ht, ?_⟩
    obtain ⟨x, hx⟩ := (isValid_iff m).mp hv
    exact (isValid_iff (union ms)).mpr ⟨x, mem_membersOfAll.mpr ⟨m, hm, hx⟩⟩
  | case5 a b _ => exact ⟨rfl, rfl⟩
  | case6 a b _ _ => exact ⟨rfl, rfl⟩
  | case7 a b _ _ => exact ⟨rfl, rfl⟩
  | case8 a r b s argument result hvalid iha ihr =>
    rw [Bool.and_eq_true] at hvalid
    obtain ⟨ha, hb⟩ := iha hvalid.1
    obtain ⟨hr, hs⟩ := ihr hvalid.2
    exact ⟨by simp [isValid, ha, hr], by simp [isValid, hb, hs]⟩
  | case9 a r b s argument result hvalid _ _ =>
    rw [meet_func, if_neg hvalid] at hab
    cases hab
  | case10 name argument result =>
    rw [meet_atomic_func] at hab
    cases hab
  | case11 argument result name =>
    rw [meet_func_atomic] at hab
    cases hab

/-- A meet has the form of a union. -/
theorem unionOf_meet (h : Hierarchy) (ha : a ≠ top) (hb : b ≠ top) :
    unionOf [meet h a b] = meet h a b := by
  have hself : ∀ {t : SemType}, t = bottom ∨ isMember t = true → unionOf [t] = t := by
    rintro t (rfl | ht)
    · simp [unionOf, bottom, members, membersOfAll, sortedSet, dropRepeats]
    · unfold unionOf
      have hne : t ≠ top := by
        rintro rfl
        cases ht
      simp [membersOfAll, members_of_isMember ht, Ne.symm hne, sortedSet, dropRepeats]
  cases a with
  | top => exact absurd rfl ha
  | union ms =>
    rw [meet_union_left h ms hb]
    exact unionOf_unionOf _
  | atomic x =>
    cases b with
    | top => exact absurd rfl hb
    | union ns =>
      rw [meet_union_right h ns (by simp) (by simp)]
      exact unionOf_unionOf _
    | atomic y =>
      refine hself ?_
      rw [meet_atomic]
      split
      · exact Or.inr rfl
      · split
        · exact Or.inr rfl
        · exact Or.inl rfl
    | func b s => exact hself (Or.inl (meet_atomic_func h x b s))
  | func a r =>
    cases b with
    | top => exact absurd rfl hb
    | union ns =>
      rw [meet_union_right h ns (by simp) (by simp)]
      exact unionOf_unionOf _
    | atomic y => exact hself (Or.inl (meet_func_atomic h a r y))
    | func b s =>
      refine hself ?_
      rw [meet_func]
      split
      · rename_i hvalid
        exact Or.inr hvalid
      · exact Or.inl rfl

/-- **The meet of types in simplest form** is in simplest form. -/
theorem simplified_meet (h : Hierarchy) (a b : SemType) (ha : Simplified a) (hb : Simplified b) :
    Simplified (meet h a b) := by
  induction a, b using meet.induct h with
  | case1 t => rwa [meet_top_left]
  | case2 t _ => rwa [meet_top_right]
  | case3 ms t ht ih =>
    rw [meet_union_left h ms ht]
    refine simplified_unionOf fun u hu => ?_
    obtain ⟨m, hm, rfl⟩ := List.mem_map.mp hu
    cases ha with
    | union hms => exact ih m hm (hms m hm) hb
  | case4 t ms ht hu ih =>
    rw [meet_union_right h ms ht hu]
    refine simplified_unionOf fun u hu => ?_
    obtain ⟨m, hm, rfl⟩ := List.mem_map.mp hu
    cases hb with
    | union hms => exact ih m hm ha (hms m hm)
  | case5 a b hab => rw [meet_atomic, if_pos hab]; exact .atomic a
  | case6 a b hab hba => rw [meet_atomic, if_neg hab, if_pos hba]; exact .atomic b
  | case7 a b hab hba => rw [meet_atomic, if_neg hab, if_neg hba]; exact simplified_bottom
  | case8 a r b s argument result hvalid iha ihr =>
    rw [meet_func, if_pos hvalid]
    cases ha with
    | func ha hr =>
      cases hb with
      | func hb hs => exact .func (iha ha hb) (ihr hr hs)
  | case9 a r b s argument result hvalid _ _ =>
    rw [meet_func, if_neg hvalid]
    exact simplified_bottom
  | case10 name argument result => rw [meet_atomic_func]; exact simplified_bottom
  | case11 argument result name => rw [meet_func_atomic]; exact simplified_bottom

/-- No member of a meet is `top` unless both types are. -/
theorem top_not_mem_members_meet (h : Hierarchy) (a b : SemType) (ha : Simplified a) (hb : Simplified b)
    (hne : a ≠ top ∨ b ≠ top) : top ∉ members (meet h a b) := by
  induction a, b using meet.induct h with
  | case1 t =>
    rw [meet_top_left]
    exact fun hmem => hne.elim (fun hn => hn rfl) fun hn => hn (hb.eq_top hmem)
  | case2 t ht =>
    rw [meet_top_right]
    exact fun hmem => ht (ha.eq_top hmem)
  | case3 ms t ht ih =>
    rw [meet_union_left h ms ht, top_mem_members_unionOf, mem_membersOfAll]
    rintro ⟨u, hu, hmem⟩
    obtain ⟨m, hm, rfl⟩ := List.mem_map.mp hu
    cases ha with
    | union hms => exact ih m hm (hms m hm) hb (Or.inr ht) hmem
  | case4 t ms ht hu ih =>
    rw [meet_union_right h ms ht hu, top_mem_members_unionOf, mem_membersOfAll]
    rintro ⟨u, hu, hmem⟩
    obtain ⟨m, hm, rfl⟩ := List.mem_map.mp hu
    cases hb with
    | union hms => exact ih m hm ha (hms m hm) (Or.inl ht) hmem
  | case5 a b hab => simp [meet_atomic, hab, members]
  | case6 a b hab hba => simp [meet_atomic, hab, hba, members]
  | case7 a b hab hba => simp [meet_atomic, hab, hba, bottom, members, membersOfAll]
  | case8 a r b s argument result hvalid _ _ =>
    rw [meet_func, if_pos hvalid, members_of_isMember (t := func _ _) hvalid]
    simp
  | case9 a r b s argument result hvalid _ _ =>
    rw [meet_func, if_neg hvalid]
    simp [bottom, members, membersOfAll]
  | case10 name argument result => simp [bottom, members, membersOfAll]
  | case11 argument result name => simp [bottom, members, membersOfAll]

/-- A type without members meets nothing. -/
theorem members_meet_eq_nil (ha : members a = [] ∨ members b = []) : members (meet h a b) = [] := by
  rw [List.eq_nil_iff_forall_not_mem]
  intro t ht
  obtain ⟨hva, hvb⟩ := isValid_of_meet h a b ((isValid_iff _).mpr ⟨t, ht⟩)
  rw [isValid_iff] at hva hvb
  rcases ha with ha | hb
  · simp [ha] at hva
  · simp [hb] at hvb

/-- The members of a type that is no union: the type itself, or none. -/
theorem members_eq_self_or_nil (hu : ∀ ms, a ≠ union ms) : members a = [a] ∨ members a = [] := by
  cases a with
  | func a r =>
    rw [members]
    split
    · exact Or.inl rfl
    · exact Or.inr rfl
  | union ms => exact absurd rfl (hu ms)
  | _ => exact Or.inl rfl

/-- **The members of a meet**, by the members of the type on the left. -/
theorem mem_members_meet_left {t : SemType} (ha : Simplified a) (hb : Simplified b) :
    t ∈ members (meet h a b) ↔ ∃ m ∈ members a, t ∈ members (meet h m b) := by
  by_cases htop : b = top
  · subst htop
    simp only [meet_top_right]
    constructor
    · exact fun ht => ⟨t, ht, by simp [members_of_mem ht]⟩
    · rintro ⟨m, hm, ht⟩
      rw [members_of_mem hm, List.mem_singleton] at ht
      exact ht ▸ hm
  · by_cases hu : ∃ ms, a = union ms
    · obtain ⟨ms, rfl⟩ := hu
      have hmeet : ∀ m ∈ ms, top ∉ members (meet h m b) := fun m hm => by
        cases ha with
        | union hms => exact top_not_mem_members_meet h m b (hms m hm) hb (Or.inr htop)
      rw [meet_union_left h ms htop, members_union ha, mem_members_unionOf, mem_membersOfAll]
      · simp
      · rw [mem_membersOfAll]
        rintro ⟨u, hu, hmem⟩
        obtain ⟨m, hm, rfl⟩ := List.mem_map.mp hu
        exact hmeet m hm hmem
    · rcases members_eq_self_or_nil (not_exists.mp hu) with hself | hnil
      · simp [hself]
      · simp [hnil, members_meet_eq_nil (Or.inl hnil)]

/-- The members of a meet, by the members of the type on the right. -/
theorem mem_members_meet_right {t : SemType} (ha : Simplified a) (hb : Simplified b) :
    t ∈ members (meet h a b) ↔ ∃ n ∈ members b, t ∈ members (meet h a n) := by
  by_cases htop : a = top
  · subst htop
    simp only [meet_top_left]
    constructor
    · exact fun ht => ⟨t, ht, by simp [members_of_mem ht]⟩
    · rintro ⟨n, hn, ht⟩
      rw [members_of_mem hn, List.mem_singleton] at ht
      exact ht ▸ hn
  · by_cases hu : ∃ ns, b = union ns
    · obtain ⟨ns, rfl⟩ := hu
      -- the member of the left type comes first, whatever the right one is
      have hright : ∀ {m}, Simplified m → m ≠ top → (∀ ms, m ≠ union ms) →
          (t ∈ members (meet h m (union ns)) ↔ ∃ n ∈ ns, t ∈ members (meet h m n)) := by
        intro m hm hmtop hmu
        rw [meet_union_right h ns hmtop hmu, mem_members_unionOf, mem_membersOfAll]
        · simp
        · rw [mem_membersOfAll]
          rintro ⟨u, hu, hmem⟩
          obtain ⟨n, hn, rfl⟩ := List.mem_map.mp hu
          cases hb with
          | union hns => exact top_not_mem_members_meet h m n hm (hns n hn) (Or.inl hmtop) hmem
      rw [members_union hb]
      by_cases hua : ∃ ms, a = union ms
      · obtain ⟨ms, rfl⟩ := hua
        have hms : ∀ m ∈ ms, Simplified m ∧ isMember m = true := by
          cases ha with
          | union hms hmember => exact fun m hm => ⟨hms m hm, hmember m hm⟩
        have hns : ∀ n ∈ ns, Simplified n := by
          cases hb with
          | union hns => exact hns
        calc t ∈ members (meet h (union ms) (union ns))
            ↔ ∃ m ∈ ms, t ∈ members (meet h m (union ns)) := by
              rw [mem_members_meet_left ha hb, members_union ha]
          _ ↔ ∃ m ∈ ms, ∃ n ∈ ns, t ∈ members (meet h m n) := by
              refine exists_congr fun m => and_congr_right fun hm => ?_
              obtain ⟨hsimple, hmember⟩ := hms m hm
              refine hright hsimple ?_ ?_
              · rintro rfl
                cases hmember
              · rintro ks rfl
                cases hmember
          _ ↔ ∃ n ∈ ns, ∃ m ∈ ms, t ∈ members (meet h m n) :=
              ⟨fun ⟨m, hm, n, hn, ht⟩ => ⟨n, hn, m, hm, ht⟩, fun ⟨n, hn, m, hm, ht⟩ => ⟨m, hm, n, hn, ht⟩⟩
          _ ↔ ∃ n ∈ ns, t ∈ members (meet h (union ms) n) := by
              refine exists_congr fun n => and_congr_right fun hn => ?_
              rw [mem_members_meet_left ha (hns n hn), members_union ha]
      · exact hright ha htop (not_exists.mp hua)
    · rcases members_eq_self_or_nil (not_exists.mp hu) with hself | hnil
      · simp [hself]
      · simp [hnil, members_meet_eq_nil (Or.inr hnil)]

/-- **Types of the form of a union** are the same if they have the same members. -/
theorem eq_of_members {s t : SemType} (hs : unionOf [s] = s) (ht : unionOf [t] = t)
    (hmem : ∀ m, m ∈ members s ↔ m ∈ members t) : s = t := by
  rw [← hs, ← ht]
  refine unionOf_congr fun m => ?_
  simpa [membersOfAll] using hmem m

/-! ## Laws -/

/-- **Types commute** in a meet if their members do. -/
theorem meet_comm_of_members (ha : Simplified a) (hb : Simplified b)
    (hmem : ∀ m ∈ members a, ∀ n ∈ members b, meet h m n = meet h n m) : meet h a b = meet h b a := by
  by_cases hatop : a = top
  · rw [hatop, meet_top_left, meet_top_right]
  by_cases hbtop : b = top
  · rw [hbtop, meet_top_left, meet_top_right]
  refine eq_of_members (unionOf_meet h hatop hbtop) (unionOf_meet h hbtop hatop) fun t => ?_
  calc t ∈ members (meet h a b)
      ↔ ∃ m ∈ members a, ∃ n ∈ members b, t ∈ members (meet h m n) := by
        rw [mem_members_meet_left ha hb]
        exact exists_congr fun m => and_congr_right fun hm =>
          mem_members_meet_right (ha.of_mem_members hm) hb
    _ ↔ ∃ m ∈ members a, ∃ n ∈ members b, t ∈ members (meet h n m) := by
        refine exists_congr fun m => and_congr_right fun hm => exists_congr fun n => and_congr_right fun hn => ?_
        rw [hmem m hm n hn]
    _ ↔ t ∈ members (meet h b a) := by
        rw [mem_members_meet_right hb ha]
        exact exists_congr fun m => and_congr_right fun hm =>
          (mem_members_meet_left hb (ha.of_mem_members hm)).symm

theorem meet_comm_atomic (hf : h.IsForest) (x y : String) :
    meet h (atomic x) (atomic y) = meet h (atomic y) (atomic x) := by
  rw [meet_atomic, meet_atomic]
  by_cases hxy : h.isSubtype x y = true
  · by_cases hyx : h.isSubtype y x = true
    · rw [if_pos hxy, if_pos hyx, hf.antisymm x y hxy hyx]
    · rw [if_pos hxy, if_neg hyx, if_pos hxy]
  · by_cases hyx : h.isSubtype y x = true
    · rw [if_neg hxy, if_pos hyx, if_pos hyx]
    · rw [if_neg hxy, if_neg hyx, if_neg hyx, if_neg hxy]

/-- **Meet is commutative.** The induction is on the form of the first type; a function commutes with another one if
their arguments and their results do. -/
theorem meet_comm (hf : h.IsForest) (ha : Simplified a) (hb : Simplified b) :
    meet h a b = meet h b a := by
  induction ha generalizing b with
  | top => rw [meet_top_left, meet_top_right]
  | atomic x =>
    refine meet_comm_of_members (.atomic x) hb fun m hm n hn => ?_
    rw [List.mem_singleton.mp hm]
    rcases eq_top_or_isMember b hn with rfl | hmember
    · rw [meet_top_left, meet_top_right]
    · cases n with
      | atomic y => exact meet_comm_atomic hf x y
      | func b s => rw [meet_atomic_func, meet_func_atomic]
      | _ => cases hmember
  | @func a r ha hr iha ihr =>
    refine meet_comm_of_members (.func ha hr) hb fun m hm n hn => ?_
    obtain rfl : m = func a r := by
      rcases members_eq_self_or_nil (a := func a r) (by simp) with hself | hnil
      · rw [hself] at hm
        exact List.mem_singleton.mp hm
      · rw [hnil] at hm
        cases hm
    have hn' := hb.of_mem_members hn
    cases hn' with
    | top => rw [meet_top_left, meet_top_right]
    | atomic y => rw [meet_atomic_func, meet_func_atomic]
    | func hb hs => rw [meet_func, meet_func, iha hb, ihr hs]
    | union => cases (eq_top_or_isMember b hn).resolve_left (by simp)
  | @union ms hms hmember hpair hlen ih =>
    have ha : Simplified (.union ms) := .union hms hmember hpair hlen
    refine meet_comm_of_members ha hb fun m hm n hn => ?_
    rw [members_union ha] at hm
    exact ih m hm (hb.of_mem_members hn)

/-- A type of the form of a union is `bottom` if it has no members. -/
theorem eq_bottom {t : SemType} (ht : unionOf [t] = t) (hnil : members t = []) : t = bottom := by
  rw [← ht]
  simp [unionOf, membersOfAll, hnil, sortedSet, dropRepeats, bottom]

@[simp] theorem meet_bottom_left (ha : a ≠ top) : meet h bottom a = bottom :=
  eq_bottom (unionOf_meet h (by simp [bottom]) ha) (members_meet_eq_nil (Or.inl rfl))

@[simp] theorem meet_bottom_right (ha : a ≠ top) : meet h a bottom = bottom :=
  eq_bottom (unionOf_meet h ha (by simp [bottom])) (members_meet_eq_nil (Or.inr rfl))

/-- The members of a meet of three types. -/
theorem mem_members_meet_meet {t : SemType} (ha : Simplified a) (hb : Simplified b) (hc : Simplified c) :
    t ∈ members (meet h (meet h a b) c) ↔
      ∃ m ∈ members a, ∃ n ∈ members b, ∃ k ∈ members c, t ∈ members (meet h (meet h m n) k) := by
  have hmeet : ∀ {m n}, m ∈ members a → n ∈ members b → Simplified (meet h m n) := fun hm hn =>
    simplified_meet h _ _ (ha.of_mem_members hm) (hb.of_mem_members hn)
  rw [mem_members_meet_left (simplified_meet h a b ha hb) hc]
  constructor
  · rintro ⟨y, hy, ht⟩
    rw [mem_members_meet_left ha hb] at hy
    obtain ⟨m, hm, hy⟩ := hy
    rw [mem_members_meet_right (ha.of_mem_members hm) hb] at hy
    obtain ⟨n, hn, hy⟩ := hy
    rw [mem_members_meet_right ((hmeet hm hn).of_mem_members hy) hc] at ht
    obtain ⟨k, hk, ht⟩ := ht
    refine ⟨m, hm, n, hn, k, hk, ?_⟩
    exact (mem_members_meet_left (hmeet hm hn) (hc.of_mem_members hk)).mpr ⟨y, hy, ht⟩
  · rintro ⟨m, hm, n, hn, k, hk, ht⟩
    obtain ⟨y, hy, ht⟩ := (mem_members_meet_left (hmeet hm hn) (hc.of_mem_members hk)).mp ht
    refine ⟨y, (mem_members_meet_left ha hb).mpr ⟨m, hm, ?_⟩, ?_⟩
    · exact (mem_members_meet_right (ha.of_mem_members hm) hb).mpr ⟨n, hn, hy⟩
    · exact (mem_members_meet_right ((hmeet hm hn).of_mem_members hy) hc).mpr ⟨k, hk, ht⟩

/-- **Types associate** in a meet if their members do. -/
theorem meet_assoc_of_members (hf : h.IsForest) (ha : Simplified a) (hb : Simplified b) (hc : Simplified c)
    (hmem : ∀ m ∈ members a, ∀ n ∈ members b, ∀ k ∈ members c,
      meet h (meet h m n) k = meet h m (meet h n k)) :
    meet h (meet h a b) c = meet h a (meet h b c) := by
  by_cases hatop : a = top
  · rw [hatop, meet_top_left, meet_top_left]
  by_cases hbtop : b = top
  · rw [hbtop, meet_top_left, meet_top_right]
  by_cases hctop : c = top
  · rw [hctop, meet_top_right, meet_top_right]
  have hne : ∀ {s t}, Simplified s → Simplified t → s ≠ top → meet h s t ≠ top := fun hs ht hs' he => by
    have := top_not_mem_members_meet h _ _ hs ht (Or.inl hs')
    rw [he] at this
    exact this (List.mem_singleton_self _)
  have hbc := simplified_meet h b c hb hc
  refine eq_of_members (unionOf_meet h (hne ha hb hatop) hctop) (unionOf_meet h hatop (hne hb hc hbtop))
    fun t => ?_
  rw [meet_comm hf ha hbc, mem_members_meet_meet ha hb hc, mem_members_meet_meet hb hc ha]
  have hswap : ∀ {m n k}, m ∈ members a → n ∈ members b → k ∈ members c →
      meet h (meet h m n) k = meet h (meet h n k) m := fun hm hn hk => by
    have hnk := simplified_meet h _ _ (hb.of_mem_members hn) (hc.of_mem_members hk)
    rw [hmem _ hm _ hn _ hk, meet_comm hf (ha.of_mem_members hm) hnk]
  constructor
  · rintro ⟨m, hm, n, hn, k, hk, ht⟩
    exact ⟨n, hn, k, hk, m, hm, hswap hm hn hk ▸ ht⟩
  · rintro ⟨n, hn, k, hk, m, hm, ht⟩
    exact ⟨m, hm, n, hn, k, hk, hswap hm hn hk ▸ ht⟩

/-- Names associate: what lies below one of two names that are not comparable lies below it only. -/
theorem meet_assoc_atomic (hf : h.IsForest) (x y z : String) :
    meet h (meet h (atomic x) (atomic y)) (atomic z) =
      meet h (atomic x) (meet h (atomic y) (atomic z)) := by
  have hbot : ∀ {w}, meet h bottom (atomic w) = bottom := meet_bottom_left (by simp)
  have hbot' : ∀ {w}, meet h (atomic w) bottom = bottom := meet_bottom_right (by simp)
  simp only [meet_atomic]
  by_cases hxy : h.isSubtype x y = true
  · by_cases hyz : h.isSubtype y z = true
    · have hxz := hf.trans x y z hxy hyz
      simp [hxy, hyz, hxz, meet_atomic]
    · by_cases hzy : h.isSubtype z y = true
      · simp [hxy, hyz, hzy, meet_atomic]
      · have hxz : ¬ h.isSubtype x z = true := fun hxz =>
          (hf.chain x y z hxy hxz).elim hyz hzy
        have hzx : ¬ h.isSubtype z x = true := fun hzx => hzy (hf.trans z x y hzx hxy)
        simp [hxy, hyz, hzy, hxz, hzx, meet_atomic, hbot']
  · by_cases hyx : h.isSubtype y x = true
    · by_cases hyz : h.isSubtype y z = true
      · simp [hxy, hyx, hyz, meet_atomic]
      · by_cases hzy : h.isSubtype z y = true
        · have hzx := hf.trans z y x hzy hyx
          have hxz : ¬ h.isSubtype x z = true := fun hxz => hxy (hf.trans x z y hxz hzy)
          simp [hxy, hyx, hyz, hzy, hzx, hxz, meet_atomic]
        · simp [hxy, hyx, hyz, hzy, meet_atomic, hbot']
    · by_cases hyz : h.isSubtype y z = true
      · simp [hxy, hyx, hyz, meet_atomic, hbot]
      · by_cases hzy : h.isSubtype z y = true
        · have hxz : ¬ h.isSubtype x z = true := fun hxz => hxy (hf.trans x z y hxz hzy)
          have hzx : ¬ h.isSubtype z x = true := fun hzx => (hf.chain z x y hzx hzy).elim hxy hyx
          simp [hxy, hyx, hyz, hzy, hxz, hzx, meet_atomic, hbot]
        · simp [hxy, hyx, hyz, hzy, hbot, hbot']

/-- Functions associate if their arguments and their results do. -/
theorem meet_assoc_func {p q u v w z : SemType}
    (harg : meet h (meet h p u) w = meet h p (meet h u w))
    (hres : meet h (meet h q v) z = meet h q (meet h v z)) :
    meet h (meet h (func p q) (func u v)) (func w z) =
      meet h (func p q) (meet h (func u v) (func w z)) := by
  have hbot : ∀ {s t}, meet h bottom (func s t) = bottom := meet_bottom_left (by simp)
  have hbot' : ∀ {s t}, meet h (func s t) bottom = bottom := meet_bottom_right (by simp)
  by_cases hvalid : (meet h (meet h p u) w).isValid = true ∧ (meet h (meet h q v) z).isValid = true
  · -- all parts of a valid function are valid, and so the two sides go through
    obtain ⟨hpuw, hqvz⟩ := hvalid
    have hpu := (isValid_of_meet h _ _ hpuw).1
    have hqv := (isValid_of_meet h _ _ hqvz).1
    rw [harg] at hpuw
    rw [hres] at hqvz
    have huw := (isValid_of_meet h _ _ hpuw).2
    have hvz := (isValid_of_meet h _ _ hqvz).2
    simp [meet_func, hpu, hqv, huw, hvz, harg, hres, hpuw, hqvz]
  · have hleft : meet h (meet h (func p q) (func u v)) (func w z) = bottom := by
      rw [meet_func h p q u v]
      split
      · rw [meet_func, if_neg (by simpa using hvalid)]
      · exact hbot
    have hright : meet h (func p q) (meet h (func u v) (func w z)) = bottom := by
      rw [meet_func h u v w z]
      split
      · rw [meet_func, ← harg, ← hres, if_neg (by simpa using hvalid)]
      · exact hbot'
    rw [hleft, hright]

/-- Names and functions have nothing in common. -/
theorem meet_meet_atomic_func (x y : String) (p q : SemType) :
    meet h (meet h (atomic x) (atomic y)) (func p q) = bottom := by
  rw [meet_atomic]
  split
  · exact meet_atomic_func h x p q
  · split
    · exact meet_atomic_func h y p q
    · exact meet_bottom_left (by simp)

theorem meet_meet_func_atomic (p q u v : SemType) (x : String) :
    meet h (meet h (func p q) (func u v)) (atomic x) = bottom := by
  rw [meet_func]
  split
  · exact meet_func_atomic h _ _ x
  · exact meet_bottom_left (by simp)

/-- A type without other members associates if it does so with names and functions. -/
theorem meet_assoc_of_isMember (hf : h.IsForest) (ha : Simplified a) (hb : Simplified b) (hc : Simplified c)
    (hself : ∀ m ∈ members a, m = a)
    (hmem : ∀ {n k}, Simplified n → isMember n = true → Simplified k → isMember k = true →
      meet h (meet h a n) k = meet h a (meet h n k)) :
    meet h (meet h a b) c = meet h a (meet h b c) := by
  refine meet_assoc_of_members hf ha hb hc fun m hm n hn k hk => ?_
  rw [hself m hm]
  have hn' := hb.of_mem_members hn
  have hk' := hc.of_mem_members hk
  rcases eq_top_or_isMember b hn with rfl | hn
  · rw [meet_top_left, meet_top_right]
  rcases eq_top_or_isMember c hk with rfl | hk
  · rw [meet_top_right, meet_top_right]
  exact hmem hn' hn hk' hk

/-- **Meet is associative.** The induction is on the form of the first type. -/
theorem meet_assoc (hf : h.IsForest) (ha : Simplified a) (hb : Simplified b) (hc : Simplified c) :
    meet h (meet h a b) c = meet h a (meet h b c) := by
  induction ha generalizing b c with
  | top => rw [meet_top_left, meet_top_left]
  | atomic x =>
    refine meet_assoc_of_isMember hf (.atomic x) hb hc (fun m hm => List.mem_singleton.mp hm)
      fun {n k} hn hn' hk hk' => ?_
    cases hn with
    | atomic y =>
      cases hk with
      | atomic z => exact meet_assoc_atomic hf x y z
      | func => simp [meet_meet_atomic_func]
      | _ => cases hk'
    | @func u v hu hv =>
      cases hk with
      | atomic z => simp
      | @func w z hw hz =>
        rw [meet_comm hf (.atomic x) (simplified_meet h _ _ (.func hu hv) (.func hw hz)),
          meet_meet_func_atomic]
        simp
      | _ => cases hk'
    | _ => cases hn'
  | @func p q hp hq ihp ihq =>
    have hself : ∀ m ∈ members (func p q), m = func p q := by
      intro m hm
      rcases members_eq_self_or_nil (a := func p q) (by simp) with hself | hnil
      · rw [hself] at hm
        exact List.mem_singleton.mp hm
      · rw [hnil] at hm
        cases hm
    refine meet_assoc_of_isMember hf (.func hp hq) hb hc hself fun {n k} hn hn' hk hk' => ?_
    cases hn with
    | atomic y =>
      cases hk with
      | atomic z =>
        rw [meet_comm hf (.func hp hq) (simplified_meet h _ _ (.atomic y) (.atomic z)),
          meet_meet_atomic_func]
        simp
      | func => simp
      | _ => cases hk'
    | func hu hv =>
      cases hk with
      | atomic z => simp [meet_meet_func_atomic]
      | func hw hz => exact meet_assoc_func (ihp hu hw) (ihq hv hz)
      | _ => cases hk'
    | _ => cases hn'
  | @union ms hms hmember hpair hlen ih =>
    have ha : Simplified (.union ms) := .union hms hmember hpair hlen
    refine meet_assoc_of_members hf ha hb hc fun m hm n hn k hk => ?_
    rw [members_union ha] at hm
    exact ih m hm (hb.of_mem_members hn) (hc.of_mem_members hk)

/-- **The order does not matter** when types are met one after another. -/
theorem foldl_meet_perm (hf : h.IsForest) {l l' : List SemType} (hp : l.Perm l') (ha : Simplified a)
    (hl : ∀ t ∈ l, Simplified t) : l.foldl (meet h) a = l'.foldl (meet h) a := by
  induction hp generalizing a with
  | nil => rfl
  | cons t _ ih =>
    exact ih (simplified_meet h a t ha (hl t List.mem_cons_self)) fun u hu =>
      hl u (List.mem_cons_of_mem _ hu)
  | swap t u l =>
    have hu : Simplified u := hl u List.mem_cons_self
    have ht : Simplified t := hl t (List.mem_cons_of_mem _ List.mem_cons_self)
    simp only [List.foldl_cons]
    rw [meet_assoc hf ha hu ht, meet_comm hf hu ht, ← meet_assoc hf ha ht hu]
  | trans hp _ ih ih' =>
    rw [ih ha hl]
    exact ih' ha fun t ht => hl t (hp.mem_iff.mpr ht)

/-- **Types form a semilattice under meet**, over every hierarchy in which names lie below each other in chains, as
they do from the start: meet is commutative and associative on types in simplest form, and so types that are met one
after another have the same meet in every order. -/
theorem meet_semilattice :
    Hierarchy.standard.IsForest ∧
      ∀ h : Hierarchy, h.IsForest →
        (∀ a b, Simplified a → Simplified b → meet h a b = meet h b a) ∧
        (∀ a b c, Simplified a → Simplified b → Simplified c →
          meet h (meet h a b) c = meet h a (meet h b c)) ∧
        ∀ (t t' : SemType) (l l' : List SemType), (∀ s ∈ t :: l, Simplified s) →
          (t :: l).Perm (t' :: l') → l.foldl (meet h) t = l'.foldl (meet h) t' := by
  refine ⟨Hierarchy.isForest_standard, fun h hf => ⟨fun a b => meet_comm hf, fun a b c => meet_assoc hf, ?_⟩⟩
  intro t t' l l' hl hp
  -- a fold that starts from `top` starts from its first type
  have htop : ∀ (s : SemType) (k : List SemType), (s :: k).foldl (meet h) top = k.foldl (meet h) s :=
    fun s k => by rw [List.foldl_cons, meet_top_left]
  rw [← htop t l, ← htop t' l']
  exact foldl_meet_perm hf hp .top hl

/-- The type of cities or countries. -/
def samplePlace : SemType := union [atomic "city", atomic "country"]

theorem meet_semilattice_sample :
    Hierarchy.standard.IsForest ∧ Simplified (func samplePlace top) ∧
      Simplified (union [int, func any number]) ∧ Simplified (func (atomic "city") int) ∧
      meet .standard (meet .standard (func samplePlace top) (union [int, func any number]))
          (func (atomic "city") int) =
        meet .standard (func samplePlace top)
          (meet .standard (union [int, func any number]) (func (atomic "city") int)) := by
  have hplace : Simplified (func samplePlace top) :=
    .func (.union (by simp [Simplified.atomic]) (by decide) (by unfold Before; decide) (by decide)) .top
  have hnumber : Simplified (union [int, func any number]) :=
    .union (by
      intro m hm
      rcases List.mem_cons.mp hm with rfl | hm
      · exact .atomic _
      · exact List.mem_singleton.mp hm ▸ .func (.atomic _) (.atomic _))
      (by decide) (by unfold Before; decide) (by decide)
  have hcity : Simplified (func (atomic "city") int) := .func (.atomic _) (.atomic _)
  obtain ⟨hforest, hlaws⟩ := meet_semilattice
  exact ⟨hforest, hplace, hnumber, hcity, (hlaws _ hforest).2.1 _ _ _ hplace hnumber hcity⟩

end SemType

end Parlance
