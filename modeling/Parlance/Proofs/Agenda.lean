import Mathlib.Data.Multiset.AddSub
import Parlance.Parse.Agenda

/-!
# `Proofs.Agenda` — what an agenda holds

Whatever the priorities are, an agenda holds the items that were put in and not yet taken out. It says which item is
next, but loses none and makes none up. The priorities do not matter for this, nor does sorting.

## Contents
- **Items.** `Agenda.contents`, kept by sorting.
- **Taking out.** What `pop?` and `remove?` leave behind.
-/

namespace Parlance

variable {β α : Type} [Score α]

/-! ## Items -/

theorem ListAgenda.insertAbove_perm (item : β × α) (l : List (β × α)) :
    (insertAbove item l).Perm (item :: l) := by
  induction l with
  | nil => exact .refl _
  | cons other rest ih =>
    rw [insertAbove]
    split
    · exact (ih.cons other).trans (.swap item other rest)
    · exact .refl _

theorem ListAgenda.sort_perm (agenda : ListAgenda β α) : agenda.sort.items.Perm agenda.items := by
  have hfold : ∀ l sorted : List (β × α),
      (l.foldl (fun sorted item => insertAbove item sorted) sorted).Perm (l ++ sorted) := by
    intro l
    induction l with
    | nil => exact fun sorted => .refl _
    | cons item l ih =>
      intro sorted
      refine (ih (insertAbove item sorted)).trans (((insertAbove_perm item sorted).append_left l).trans ?_)
      exact List.perm_middle
  refine (List.reverse_perm _).trans ((hfold agenda.items []).trans ?_)
  rw [List.append_nil]

/-- Taking out an entry leaves all others. -/
theorem QueueEntry.takeGreatest_perm (entry : QueueEntry β α) (rest : List (QueueEntry β α)) :
    (entry :: rest).Perm ((entry.takeGreatest rest).1 :: (entry.takeGreatest rest).2) := by
  induction rest generalizing entry with
  | nil => exact .refl _
  | cons other rest ih =>
    rw [takeGreatest]
    split
    · exact ((ih other).cons entry).trans (.swap _ _ _)
    · exact .refl _

namespace Agenda

/-- Whether any item can be taken out. -/
def isList : Agenda β α → Bool
  | list _ => true
  | queue _ => false

/-- **The items of an agenda**, in no order. -/
def contents : Agenda β α → Multiset β
  | list agenda => agenda.items.map Prod.fst
  | queue agenda => agenda.heap.map QueueEntry.item

omit [Score α] in
theorem card_contents (agenda : Agenda β α) : agenda.contents.card = agenda.size := by
  cases agenda <;> exact List.length_map _

omit [Score α] in
theorem contents_add (agenda : Agenda β α) (item : β) (priority : α) :
    (agenda.add item priority).contents = item ::ₘ agenda.contents := by
  cases agenda with
  | list agenda =>
    refine Multiset.coe_eq_coe.mpr ?_
    show ((agenda.items ++ [(item, priority)]).map Prod.fst).Perm _
    rw [List.map_append]
    exact List.perm_append_singleton item _
  | queue agenda => rfl

theorem contents_sort (agenda : Agenda β α) : agenda.sort.contents = agenda.contents := by
  cases agenda with
  | list agenda => exact Multiset.coe_eq_coe.mpr (agenda.sort_perm.map Prod.fst)
  | queue agenda => rfl

omit [Score α] in
@[simp] theorem isList_add (agenda : Agenda β α) (item : β) (priority : α) :
    (agenda.add item priority).isList = agenda.isList := by
  cases agenda <;> rfl

@[simp] theorem isList_sort (agenda : Agenda β α) : agenda.sort.isList = agenda.isList := by
  cases agenda <;> rfl

/-! ## Taking out -/

/-- A queue that is not empty gives an item away. -/
theorem exists_pop {agenda : Agenda β α} (h : agenda.isList = false) (hsize : agenda.size ≠ 0) :
    ∃ item rest, agenda.pop? = some (item, rest) ∧ agenda.contents = item ::ₘ rest.contents ∧
      rest.isList = false := by
  cases agenda with
  | list agenda => cases h
  | queue agenda =>
    obtain ⟨heap, seq⟩ := agenda
    cases heap with
    | nil => exact absurd rfl hsize
    | cons entry heap =>
      have hperm := entry.takeGreatest_perm heap
      exact ⟨_, queue ⟨_, seq⟩, rfl, Multiset.coe_eq_coe.mpr (hperm.map QueueEntry.item), rfl⟩

omit [Score α] in
/-- The item at a place of a list, and all others. -/
theorem exists_listRemove {agenda : ListAgenda β α} {i : Nat} {entry : β × α} (h : agenda.items[i]? = some entry) :
    ∃ rest, agenda.remove? i = some (entry.1, rest) ∧ agenda.items.Perm (entry :: rest.items) := by
  obtain ⟨items⟩ := agenda
  obtain ⟨hi, rfl⟩ := List.getElem?_eq_some_iff.mp h
  obtain ⟨init, last, rfl⟩ := List.eq_nil_or_concat' items |>.resolve_left (by rintro rfl; cases hi)
  refine ⟨⟨((init ++ [last]).set i last).dropLast⟩, ?_, ?_⟩
  · unfold ListAgenda.remove?
    dsimp only
    rw [h, List.getLast?_concat]
  · rw [List.length_append, List.length_singleton] at hi
    by_cases hlast : i = init.length
    · -- the last item itself is taken out
      subst hlast
      rw [List.getElem_concat_length rfl, List.set_append_right _ _ (Nat.le_refl _), Nat.sub_self]
      simp
    · have hlt : i < init.length := by omega
      rw [List.getElem_append_left hlt, List.set_append_left _ _ hlt, List.dropLast_concat]
      refine (List.perm_append_singleton last init).trans ?_
      refine ((List.getElem_cons_eraseIdx_perm hlt).symm.cons last).trans ?_
      exact (List.Perm.swap _ _ _).trans ((List.set_perm_cons_eraseIdx hlt last).symm.cons _)

omit [Score α] in
/-- A list gives the item at any of its places away. -/
theorem exists_remove {agenda : Agenda β α} (h : agenda.isList = true) {i : Nat} (hi : i < agenda.size) :
    ∃ item rest, agenda.remove? i = some (item, rest) ∧ agenda.contents = item ::ₘ rest.contents ∧
      rest.isList = true := by
  cases agenda with
  | queue agenda => cases h
  | list agenda =>
    have hi : i < agenda.items.length := hi
    obtain ⟨rest, hremove, hperm⟩ := exists_listRemove (List.getElem?_eq_getElem hi)
    refine ⟨_, list rest, ?_, Multiset.coe_eq_coe.mpr (hperm.map Prod.fst), rfl⟩
    show (agenda.remove? i).map _ = _
    rw [hremove]
    rfl

omit [Score α] in
/-- The item at a place of a list. -/
theorem exists_get {agenda : Agenda β α} (h : agenda.isList = true) {i : Nat} (hi : i < agenda.size) :
    ∃ item, agenda.get? i = some item := by
  cases agenda with
  | queue agenda => cases h
  | list agenda =>
    have hi : i < agenda.items.length := hi
    refine ⟨agenda.items[i].1, ?_⟩
    show agenda.items[i]?.map Prod.fst = _
    rw [List.getElem?_eq_getElem hi]
    rfl

omit [Score α] in
/-- What is taken out of a list, and what is left, was there before. -/
theorem mem_of_listRemove {agenda rest : ListAgenda β α} {i : Nat} {item : β}
    (h : agenda.remove? i = some (item, rest)) :
    item ∈ (list agenda).contents ∧ ∀ other ∈ (list rest).contents, other ∈ (list agenda).contents := by
  unfold ListAgenda.remove? at h
  split at h
  case h_1 item' priority last hitem hlast =>
    obtain ⟨rfl, rfl⟩ := Prod.mk.inj (Option.some.inj h)
    have hmem : ∀ x ∈ (agenda.items.set i last).dropLast, x ∈ agenda.items := by
      intro x hx
      rcases List.mem_or_eq_of_mem_set (List.dropLast_subset _ hx) with hx | rfl
      · exact hx
      · exact List.mem_of_getLast? hlast
    refine ⟨Multiset.mem_coe.mpr (List.mem_map_of_mem (List.mem_of_getElem? hitem)), fun other hother => ?_⟩
    obtain ⟨x, hx, rfl⟩ := List.mem_map.mp (Multiset.mem_coe.mp hother)
    exact Multiset.mem_coe.mpr (List.mem_map_of_mem (hmem x hx))
  case h_2 => cases h

omit [Score α] in
theorem mem_of_remove {agenda rest : Agenda β α} {i : Nat} {item : β} (h : agenda.remove? i = some (item, rest)) :
    item ∈ agenda.contents ∧ ∀ other ∈ rest.contents, other ∈ agenda.contents := by
  cases agenda with
  | queue agenda => cases h
  | list agenda =>
    obtain ⟨⟨item', rest'⟩, hremove, he⟩ := Option.map_eq_some_iff.mp h
    obtain ⟨rfl, rfl⟩ := Prod.mk.inj he
    exact mem_of_listRemove hremove

theorem mem_of_pop {agenda rest : Agenda β α} {item : β} (h : agenda.pop? = some (item, rest)) :
    item ∈ agenda.contents ∧ ∀ other ∈ rest.contents, other ∈ agenda.contents := by
  cases agenda with
  | list agenda =>
    obtain ⟨⟨item', rest'⟩, hpop, he⟩ := Option.map_eq_some_iff.mp h
    obtain ⟨rfl, rfl⟩ := Prod.mk.inj he
    obtain ⟨⟨i, _⟩, -, hremove⟩ := Option.bind_eq_some_iff.mp hpop
    exact mem_of_listRemove hremove
  | queue agenda =>
    obtain ⟨heap, seq⟩ := agenda
    cases heap with
    | nil => cases h
    | cons entry heap =>
      obtain ⟨rfl, rfl⟩ := Prod.mk.inj (Option.some.inj h)
      have hperm := (entry.takeGreatest_perm heap).map QueueEntry.item
      exact ⟨hperm.mem_iff.mpr List.mem_cons_self,
        fun other hother => hperm.mem_iff.mpr (List.mem_cons_of_mem _ hother)⟩

end Agenda

end Parlance
