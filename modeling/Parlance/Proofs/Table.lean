import Parlance.Table

/-!
# `Proofs.Table` — what tables list

`Table.get?` finds the first entry of a key. Tables that were made by updates have one entry a key, so that
their lists and what is found in them say the same.

## Contents
- **One entry a key.** `Distinct`, kept by every update.
- **Putting in.** `insert_eq_self` for what is there, and `mem_put`, where the entries after a change come from.
- **Taking out.** `get?_erase_self` and `get?_erase_of_ne`.
- **Updates.** `update_congr`, `update_update_self` for two of one key, and `update_comm` for two keys.
- **Keys.** Which keys there are after an update.
-/

namespace Parlance.Table

variable {α β : Type}

/-! ## One entry a key -/

/-- **Every key stands in the table once.** -/
def Distinct (t : Table α) : Prop := t.keys.Nodup

theorem distinct_empty : (empty : Table α).Distinct := List.nodup_nil

theorem Distinct.update {t : Table α} (h : t.Distinct) (key : String) (f : Option α → α) :
    (t.update key f).Distinct := by
  unfold Distinct
  rw [keys_update]
  split
  · exact h
  · rename_i hk
    exact List.nodup_append.mpr ⟨h, by simp,
      fun a ha b hb he => hk (by rw [List.mem_singleton] at hb; exact hb ▸ he ▸ ha)⟩

theorem find_eq_none_iff {key : String} {l : List (String × α)} :
    find key l = none ↔ key ∉ l.map (·.1) := by
  induction l with
  | nil => simp [find]
  | cons entry rest ih =>
    obtain ⟨k, v⟩ := entry
    by_cases hk : k = key
    · simp [find, hk]
    · simp only [find, beq_iff_eq, hk, if_false, ih, List.map_cons, List.mem_cons, Ne.symm hk,
        false_or]

/-- A key is there iff it is listed. -/
theorem contains_iff {t : Table α} {key : String} : t.contains key = true ↔ key ∈ t.keys := by
  have h : t.get? key = none ↔ key ∉ t.keys := find_eq_none_iff
  unfold contains
  rw [← Option.ne_none_iff_isSome, ne_eq, h, Classical.not_not]

/-- An entry after a change was there before, or it is the one that was put in. -/
theorem mem_put {key k : String} {v : α} {f : Option α → α} {l : List (String × α)}
    (h : (k, v) ∈ put key f l) : (k, v) ∈ l ∨ k = key ∧ v = f (find key l) := by
  induction l with
  | nil =>
    obtain ⟨rfl, rfl⟩ := Prod.mk.inj (List.mem_singleton.mp h)
    exact .inr ⟨rfl, rfl⟩
  | cons entry rest ih =>
    obtain ⟨key', w⟩ := entry
    rw [put] at h
    split at h
    case isTrue hk =>
      rcases List.mem_cons.mp h with h | h
      · obtain ⟨rfl, rfl⟩ := Prod.mk.inj h
        exact .inr ⟨by simpa using hk, by rw [find, if_pos hk]⟩
      · exact .inl (List.mem_cons_of_mem _ h)
    case isFalse hk =>
      rcases List.mem_cons.mp h with h | h
      · exact .inl (h ▸ List.mem_cons_self)
      · rcases ih h with h | ⟨hkey, hv⟩
        · exact .inl (List.mem_cons_of_mem _ h)
        · exact .inr ⟨hkey, by rw [find, if_neg hk, hv]⟩

theorem mem_of_find {key : String} {v : α} {l : List (String × α)} (h : find key l = some v) :
    (key, v) ∈ l := by
  induction l with
  | nil => cases h
  | cons entry rest ih =>
    obtain ⟨k, w⟩ := entry
    by_cases hk : k = key
    · simp only [find, hk, beq_self_eq_true, if_true] at h
      rw [hk, Option.some.inj h]
      exact List.mem_cons_self
    · simp only [find, beq_iff_eq, hk, if_false] at h
      exact List.mem_cons_of_mem _ (ih h)

theorem find_of_mem {key : String} {v : α} {l : List (String × α)} (hl : (l.map (·.1)).Nodup)
    (h : (key, v) ∈ l) : find key l = some v := by
  induction l with
  | nil => cases h
  | cons entry rest ih =>
    obtain ⟨k, w⟩ := entry
    rw [List.map_cons, List.nodup_cons] at hl
    rcases List.mem_cons.mp h with he | hr
    · injection he with hk hv
      simp [find, hk, hv]
    · have hne : k ≠ key := fun he => hl.1 (he ▸ List.mem_map_of_mem (f := (·.1)) hr)
      simp only [find, beq_iff_eq, hne, if_false]
      exact ih hl.2 hr

/-- The value at a key is the one that is listed with it. -/
theorem Distinct.mem_toList_iff {t : Table α} (h : t.Distinct) {key : String} {v : α} :
    (key, v) ∈ t.toList ↔ t.get? key = some v :=
  ⟨find_of_mem h, mem_of_find⟩

/-- Putting in what is there changes nothing. -/
theorem insert_eq_self {t : Table α} {key : String} {v : α} (h : t.get? key = some v) : t.insert key v = t := by
  obtain ⟨l⟩ := t
  unfold insert update
  congr 1
  change find key l = some v at h
  show put key (fun _ => v) l = l
  induction l with
  | nil => cases h
  | cons entry rest ih =>
    obtain ⟨k, w⟩ := entry
    by_cases hk : k = key
    case pos =>
      subst hk
      rw [find, if_pos (beq_self_eq_true k)] at h
      rw [put, if_pos (beq_self_eq_true k), Option.some.inj h]
    case neg =>
      rw [find, if_neg (by simpa using hk)] at h
      rw [put, if_neg (by simpa using hk), ih h]

theorem find_filter (keep : String → Bool) (key : String) (l : List (String × α)) :
    find key (l.filter fun entry => keep entry.1) = if keep key then find key l else none := by
  induction l with
  | nil => simp [find]
  | cons entry rest ih =>
    obtain ⟨k, v⟩ := entry
    by_cases hk : k = key
    · subst hk
      by_cases hkeep : keep k = true
      · simp [hkeep, find]
      · simpa [hkeep] using ih
    · by_cases hkeep : keep k = true
      · simpa [hkeep, find, hk] using ih
      · simpa [hkeep, find, hk] using ih

/-- A key that was taken out is not there. -/
theorem get?_erase_self (t : Table α) (key : String) : (t.erase key).get? key = none := by
  unfold get? erase
  rw [find_filter fun k => k != key]
  simp

/-- Taking a key out leaves the other ones as they are. -/
theorem get?_erase_of_ne (t : Table α) {key other : String} (h : other ≠ key) :
    (t.erase key).get? other = t.get? other := by
  unfold get? erase
  rw [find_filter fun k => k != key]
  simp [h]

/-- An update depends on what it makes of the value that is there. -/
theorem update_congr {t : Table α} {key : String} {f g : Option α → α} (h : f (t.get? key) = g (t.get? key)) :
    t.update key f = t.update key g := by
  obtain ⟨l⟩ := t
  unfold update
  congr 1
  change f (find key l) = g (find key l) at h
  induction l with
  | nil => simpa [put, find] using h
  | cons entry rest ih =>
    obtain ⟨k, v⟩ := entry
    by_cases hk : k = key
    · simpa [put, find, hk] using h
    · rw [find, if_neg (by simpa using hk)] at h
      simp [put, hk, ih h]

/-- Two updates of a key are one. -/
theorem update_update_self (t : Table α) (key : String) (f g : Option α → α) :
    (t.update key f).update key g = t.update key fun old => g (some (f old)) := by
  obtain ⟨l⟩ := t
  unfold update
  congr 1
  induction l with
  | nil => simp [put]
  | cons entry rest ih =>
    obtain ⟨k, v⟩ := entry
    by_cases hk : k = key
    · simp [put, hk]
    · simpa [put, hk] using ih

/-- Updates of two keys can be exchanged if the first one is there, so that its place is not changed. -/
theorem update_comm {t : Table α} {key other : String} (hkey : key ∈ t.keys) (hne : other ≠ key)
    (f g : Option α → α) : (t.update key f).update other g = (t.update other g).update key f := by
  obtain ⟨l⟩ := t
  unfold update
  congr 1
  change key ∈ l.map (·.1) at hkey
  induction l with
  | nil => cases hkey
  | cons entry rest ih =>
    obtain ⟨k, v⟩ := entry
    by_cases hk : k = key
    · subst hk
      simp [put, Ne.symm hne]
    · have hrest : key ∈ rest.map (·.1) := by
        simpa [Ne.symm hk] using hkey
      by_cases ho : k = other
      · subst ho
        simp [put, hk]
      · simpa [put, hk, ho] using ih hrest

/-! ## Keys -/

theorem keys_update_of_mem {t : Table α} {key : String} (h : key ∈ t.keys) (f : Option α → α) :
    (t.update key f).keys = t.keys := by
  rw [keys_update, if_pos h]

theorem mem_keys_update {t : Table α} {key other : String} {f : Option α → α} :
    other ∈ (t.update key f).keys ↔ other ∈ t.keys ∨ other = key := by
  rw [keys_update]
  split
  · rename_i h
    exact ⟨Or.inl, fun ho => ho.elim id fun he => he ▸ h⟩
  · rw [List.mem_append, List.mem_singleton]

end Parlance.Table
