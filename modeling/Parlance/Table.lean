/-!
# `Table` — string-keyed maps that remember insertion order

A table lists its keys in the order in which they were first put in. Putting a value under a key that
is there already changes the value and leaves the key in its place.

## Contents
- **Operations.** `get?`, `contains`, `update`, `insert`, `erase`, `keys`, `values`.
- **Laws.** What is found after an update (`get?_update_self`, `get?_update_of_ne`), and which keys
  there are (`keys_update`).
-/

namespace Parlance

/-- A map from strings to `α`, in insertion order. -/
structure Table (α : Type) where
  toList : List (String × α) := []
  deriving Inhabited, BEq

namespace Table

variable {α β : Type}

/-! ## Operations -/

/-- The table without entries. -/
def empty : Table α := ⟨[]⟩

/-- The value at a key of an entry list. -/
def find (key : String) : List (String × α) → Option α
  | [] => none
  | (k, v) :: rest => if k == key then some v else find key rest

/-- The entry list with the value at `key` replaced by `f` of it; `f none` goes to the end. -/
def put (key : String) (f : Option α → α) : List (String × α) → List (String × α)
  | [] => [(key, f none)]
  | (k, v) :: rest => if k == key then (k, f (some v)) :: rest else (k, v) :: put key f rest

/-- The value at a key. -/
def get? (t : Table α) (key : String) : Option α := find key t.toList

/-- Whether a key is there. -/
def contains (t : Table α) (key : String) : Bool := (t.get? key).isSome

/-- Replaces the value at a key by a function of the value there, if any. -/
def update (t : Table α) (key : String) (f : Option α → α) : Table α := ⟨put key f t.toList⟩

/-- Puts a value under a key. -/
def insert (t : Table α) (key : String) (value : α) : Table α := t.update key fun _ => value

/-- Puts a value under a key that is not there yet. -/
def insertNew (t : Table α) (key : String) (value : α) : Table α :=
  t.update key fun old => old.getD value

/-- Takes a key out. -/
def erase (t : Table α) (key : String) : Table α := ⟨t.toList.filter fun entry => entry.1 != key⟩

/-- The keys, in insertion order. -/
def keys (t : Table α) : List String := t.toList.map (·.1)

/-- The values, in the order of their keys. -/
def values (t : Table α) : List α := t.toList.map (·.2)

/-- The number of keys. -/
def size (t : Table α) : Nat := t.toList.length

/-- Whether there are no keys. -/
def isEmpty (t : Table α) : Bool := t.toList.isEmpty

/-- Applies a function to every value. -/
def map (f : α → β) (t : Table α) : Table β := ⟨t.toList.map fun entry => (entry.1, f entry.2)⟩

/-- Keeps the entries that pass a test. -/
def filter (keep : String → α → Bool) (t : Table α) : Table α :=
  ⟨t.toList.filter fun entry => keep entry.1 entry.2⟩

/-- The entries sorted by key. -/
def sorted (t : Table α) : List (String × α) :=
  t.toList.mergeSort fun a b => decide (a.1 ≤ b.1)

/-! ## Laws -/

theorem find_put_self (key : String) (f : Option α → α) (l : List (String × α)) :
    find key (put key f l) = some (f (find key l)) := by
  induction l with
  | nil => simp [put, find]
  | cons entry rest ih =>
    obtain ⟨k, v⟩ := entry
    by_cases h : k = key <;> simp [put, find, h, ih]

theorem find_put_of_ne {key other : String} (h : other ≠ key) (f : Option α → α)
    (l : List (String × α)) : find other (put key f l) = find other l := by
  induction l with
  | nil => simp [put, find, Ne.symm h]
  | cons entry rest ih =>
    obtain ⟨k, v⟩ := entry
    by_cases hk : k = key
    · subst hk; simp [put, find, Ne.symm h]
    · simp only [put, beq_iff_eq, hk, if_false, find, ih]

/-- The updated key holds what the function makes of its old value. -/
@[simp] theorem get?_update_self (t : Table α) (key : String) (f : Option α → α) :
    (t.update key f).get? key = some (f (t.get? key)) :=
  find_put_self key f t.toList

/-- Every other key keeps its value. -/
theorem get?_update_of_ne (t : Table α) {key other : String} (h : other ≠ key)
    (f : Option α → α) : (t.update key f).get? other = t.get? other :=
  find_put_of_ne h f t.toList

@[simp] theorem get?_empty (key : String) : (empty : Table α).get? key = none := rfl

theorem map_fst_put (key : String) (f : Option α → α) (l : List (String × α)) :
    (put key f l).map (·.1) =
      if key ∈ l.map (·.1) then l.map (·.1) else l.map (·.1) ++ [key] := by
  induction l with
  | nil => simp [put]
  | cons entry rest ih =>
    obtain ⟨k, v⟩ := entry
    by_cases hk : k = key
    · simp [put, hk]
    · simp only [put, beq_iff_eq, hk, if_false, List.map_cons, ih, List.mem_cons, Ne.symm hk,
        false_or]
      split <;> simp

/-- A new key goes to the end; a key that is there stays where it is. -/
theorem keys_update (t : Table α) (key : String) (f : Option α → α) :
    (t.update key f).keys = if key ∈ t.keys then t.keys else t.keys ++ [key] :=
  map_fst_put key f t.toList

end Table

end Parlance
