/-!
# `Grid` — one cell for each span of a text

A text of `n` tokens has the spans `[start, end)` with `start < n` and `end ≤ n`. A grid holds a value
for each such pair; reading outside of it gives nothing, and writing outside of it changes nothing.
-/

namespace Parlance

/-- The spans of a text of `n` tokens that are not empty, the shorter ones first. -/
def spansByLength (n : Nat) : List (Nat × Nat) :=
  (List.range n).flatMap fun k => (List.range (n - k)).map fun first => (first, first + k + 1)

/-- The spans of a text of `n` tokens that are not empty, by start and then by end. -/
def spansByStart (n : Nat) : List (Nat × Nat) :=
  (List.range n).flatMap fun first => (List.range (n - first)).map fun k => (first, first + k + 1)

/-- Writing to a place what is there changes nothing. -/
theorem array_modify_eq_self {β : Type} {l : Array β} {i : Nat} {f : β → β} (h : ∀ b, l[i]? = some b → f b = b) :
    l.modify i f = l := by
  refine Array.ext_getElem? fun j => ?_
  rw [Array.getElem?_modify]
  split
  case isFalse => rfl
  case isTrue hij =>
    subst hij
    cases hb : l[i]? with
    | none => rfl
    | some b => rw [Option.map_some, h b hb]

/-- A value for each start below `n` and each end up to `n`. -/
structure Grid (α : Type) where
  rows : Array (Array α)
  deriving Inhabited

namespace Grid

variable {α : Type}

/-- The grid over `n` tokens with the same value everywhere. -/
def replicate (n : Nat) (a : α) : Grid α := ⟨Array.replicate n (Array.replicate (n + 1) a)⟩

/-- The value at a span. -/
def get? (g : Grid α) (first last : Nat) : Option α := g.rows[first]?.bind (·[last]?)

/-- Applies a function to the value at a span. -/
def modify (g : Grid α) (first last : Nat) (f : α → α) : Grid α :=
  ⟨g.rows.modify first fun row => row.modify last f⟩

/-- The values with their spans, by start and then by end. -/
def toList (g : Grid α) : List (Nat × Nat × α) :=
  (g.rows.toList.zipIdx).flatMap fun (row, first) =>
    row.toList.zipIdx.map fun (a, last) => (first, last, a)

/-- Applies a function of the span to every value. -/
def mapSpans (g : Grid α) (f : Nat → Nat → α → α) : Grid α :=
  ⟨g.rows.mapIdx fun first row => row.mapIdx fun last a => f first last a⟩

/-- A grid with the same value everywhere has it at each span of the text. -/
theorem get?_replicate (n : Nat) (a : α) (first last : Nat) :
    (replicate n a).get? first last = if first < n ∧ last ≤ n then some a else none := by
  unfold get? replicate
  by_cases hf : first < n
  · simp only [Array.getElem?_replicate, hf, if_true, true_and, Option.bind_some, Nat.lt_succ_iff]
  · simp [hf]

theorem get?_modify_self (g : Grid α) (first last : Nat) (f : α → α) :
    (g.modify first last f).get? first last = (g.get? first last).map f := by
  simp only [get?, modify, Array.getElem?_modify]
  cases g.rows[first]? <;> simp [Array.getElem?_modify]

theorem get?_modify_of_ne (g : Grid α) {first last first' last' : Nat}
    (h : ¬(first' = first ∧ last' = last)) (f : α → α) :
    (g.modify first last f).get? first' last' = g.get? first' last' := by
  simp only [get?, modify, Array.getElem?_modify]
  by_cases hf : first = first'
  · subst hf
    have hl : last ≠ last' := fun e => h ⟨rfl, e.symm⟩
    cases g.rows[first]? <;> simp [Array.getElem?_modify, hl]
  · simp [hf]

/-- Writing what is there changes nothing. -/
theorem modify_eq_self (g : Grid α) {first last : Nat} {f : α → α} (h : ∀ a, g.get? first last = some a → f a = a) :
    g.modify first last f = g := by
  obtain ⟨rows⟩ := g
  unfold modify
  congr 1
  refine array_modify_eq_self fun row hrow => array_modify_eq_self fun a ha => h a ?_
  rw [get?, hrow, Option.bind_some, ha]

end Grid

end Parlance
