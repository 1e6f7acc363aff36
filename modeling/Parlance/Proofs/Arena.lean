import Parlance.Chart.Prune
import Parlance.Derivation.Unfolding

/-!
# `Proofs.Arena` — what stays the same about derivations

While a parse goes on, derivations are put in at the end of the arena, and the only thing that changes about
those that are there is where they stand in their cells. What is left of a derivation without its places
stays the same for good, and everything that the search asks about a derivation can be read off it.

## Contents
- **Bare derivations.** `Derivation.bare` and `Arena.bares`.
- **Writing.** What `push` and the noting of places do to the bare derivations.
- **Reading.** What a derivation and its bare form have in common.
- **Trees.** `unfold_of_isPrefix`: trees stay as they are.
- **Sorting and cutting** go by bare derivations only.
-/

namespace Parlance

variable {α : Type}

/-! ## Bare derivations -/

/-- A derivation without its places in the beam. -/
def Derivation.bare (d : Derivation α) : Derivation α :=
  { d with postSort := -1, maxBeam := -1, preSort := -1, maxUnsorted := -1 }

/-- The derivations of an arena without their places, in order. -/
def Arena.bares (arena : Arena α) : List (Derivation α) := arena.items.toList.map Derivation.bare

namespace Arena

theorem length_bares (arena : Arena α) : arena.bares.length = arena.size := by
  simp [bares, size]

theorem size_le_of_isPrefix {a b : Arena α} (h : a.bares <+: b.bares) : a.size ≤ b.size := by
  rw [← length_bares, ← length_bares]
  exact h.length_le

/-! ## Writing -/

@[simp] theorem bares_push (arena : Arena α) (d : Derivation α) :
    (arena.push d).bares = arena.bares ++ [d.bare] := by
  simp [bares, push]

@[simp] theorem size_push (arena : Arena α) (d : Derivation α) :
    (arena.push d).size = arena.size + 1 := by
  simp [size, push]

/-- A change of places is no change to the bare derivations. -/
theorem bares_modify (arena : Arena α) (i : Nat) {f : Derivation α → Derivation α}
    (h : ∀ d, (f d).bare = d.bare) : (arena.modify i f).bares = arena.bares := by
  refine List.ext_getElem? fun k => ?_
  simp only [bares, modify, List.getElem?_map, Array.getElem?_toList, Array.getElem?_modify]
  split
  · cases arena.items[k]? <;> simp [h]
  · rfl

theorem bares_notePlaces {note : Arena α → Nat → Nat → Arena α}
    (h : ∀ arena place i, (note arena place i).bares = arena.bares) (arena : Arena α) (l : List Nat) :
    (notePlaces note arena l).bares = arena.bares := by
  unfold notePlaces
  generalize l.zipIdx = pairs
  induction pairs generalizing arena with
  | nil => rfl
  | cons pair rest ih => rw [List.foldl_cons, ih, h]

/-! ## Reading -/

variable [Score α]

theorem bares_noteUnsorted (arena : Arena α) (place i : Nat) :
    (noteUnsorted arena place i).bares = arena.bares :=
  bares_modify arena i fun _ => rfl

theorem bares_noteSorted (arena : Arena α) (place i : Nat) :
    (noteSorted arena place i).bares = arena.bares :=
  bares_modify arena i fun _ => rfl

theorem bare_get (arena : Arena α) (i : Nat) :
    (arena.get i).bare = (arena.bares[i]?).getD default := by
  simp only [get, get?, bares, List.getElem?_map, Array.getElem?_toList]
  cases arena.items[i]? <;> rfl

/-- Derivations of arenas that agree on a number agree but for their places. -/
theorem bare_get_congr {a b : Arena α} {i : Nat} (h : a.bares[i]? = b.bares[i]?) :
    (a.get i).bare = (b.get i).bare := by
  rw [bare_get, bare_get, h]

/-- A later arena has the derivations of an earlier one. -/
theorem bare_get_of_isPrefix {a b : Arena α} (h : a.bares <+: b.bares) {i : Nat} (hi : i < a.size) :
    (b.get i).bare = (a.get i).bare := by
  obtain ⟨l, hl⟩ := h
  refine bare_get_congr ?_
  rw [← hl, List.getElem?_append_left (by rwa [length_bares])]

/-! ## Trees -/

theorem unfold_eq_filter (arena : Arena α) (i : Nat) :
    arena.unfold i =
      .node (arena.get i).label (((arena.get i).children.filter (· < i)).map arena.unfold) := by
  rw [unfold, List.attach_map_val]

@[simp] theorem label_unfold (arena : Arena α) (i : Nat) :
    (arena.unfold i).label = (arena.get i).label := by
  rw [unfold_eq_filter]
  rfl

/-- A tree is made of those of the children, if these have smaller numbers. -/
theorem unfold_eq {arena : Arena α} {i : Nat} (h : ∀ c ∈ (arena.get i).children, c < i) :
    arena.unfold i = (arena.get i).unfold arena := by
  rw [unfold_eq_filter, List.filter_eq_self.mpr fun c hc => decide_eq_true (h c hc)]
  rfl

/-- Arenas whose derivations say the same and are made of the same have the same trees. -/
theorem unfold_congr {a b : Arena α} (h : ∀ i, (b.get i).label = (a.get i).label)
    (hc : ∀ i, (b.get i).children = (a.get i).children) : b.unfold = a.unfold := by
  funext i
  induction i using Nat.strongRecOn with
  | ind i ih =>
    rw [unfold_eq_filter, unfold_eq_filter, h i, hc i]
    congr 1
    exact List.map_congr_left fun c hm => ih c (of_decide_eq_true (List.mem_filter.mp hm).2)

/-- **Trees stay as they are** while a parse goes on. -/
theorem unfold_of_isPrefix {a b : Arena α} (h : a.bares <+: b.bares) {i : Nat} (hi : i < a.size) :
    b.unfold i = a.unfold i := by
  induction i using Nat.strongRecOn with
  | ind i ih =>
    have hbare := bare_get_of_isPrefix h hi
    have hlabel : (b.get i).label = (a.get i).label := by
      have hl := congrArg Derivation.label hbare
      exact hl
    have hchildren : (b.get i).children = (a.get i).children := by
      have hc := congrArg Derivation.children hbare
      exact hc
    rw [unfold_eq_filter, unfold_eq_filter, hlabel, hchildren]
    congr 1
    refine List.map_congr_left fun c hc => ?_
    have hlt : c < i := of_decide_eq_true (List.mem_filter.mp hc).2
    exact ih c hlt (Nat.lt_trans hlt hi)

/-- What a derivation is made of was there before. -/
theorem unfold_derivation_of_isPrefix {a b : Arena α} (h : a.bares <+: b.bares) {d : Derivation α}
    (hc : ∀ c ∈ d.children, c < a.size) : d.unfold b = d.unfold a := by
  unfold Derivation.unfold
  rw [List.map_congr_left fun c hm => unfold_of_isPrefix h (hc c hm)]

/-! ## Sorting and cutting -/

theorem score_congr {a b : Arena α} (h : a.bares = b.bares) (i : Nat) : a.score i = b.score i := by
  have hb : (a.get i).bare = (b.get i).bare := bare_get_congr (congrArg (·[i]?) h)
  show (a.get i).bare.score = (b.get i).bare.score
  rw [hb]

theorem sort_congr {a b : Arena α} (h : a.bares = b.bares) (l : List Nat) : a.sort l = b.sort l := by
  have hb : ∀ i j, (a.get i).before (a.get j) = (b.get i).before (b.get j) := fun i j => by
    show (a.get i).bare.before (a.get j).bare = (b.get i).bare.before (b.get j).bare
    rw [bare_get_congr (congrArg (·[i]?) h), bare_get_congr (congrArg (·[j]?) h)]
  unfold sort
  simp only [hb]

theorem cut_congr {a b : Arena α} (h : a.bares = b.bares) (beam : Beam α) (l : List Nat) :
    beam.cut a l = beam.cut b l := by
  unfold Beam.cut
  simp only [score_congr h]

theorem sort_perm (arena : Arena α) (l : List Nat) : (arena.sort l).Perm l :=
  List.mergeSort_perm l _

end Arena

end Parlance
