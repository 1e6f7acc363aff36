import Parlance.Proofs.Agenda
import Parlance.Proofs.Exact
import Parlance.Proofs.Ordering

/-!
# `Proofs.Queueing` — a heap of numbered entries is a line

A queue compares its entries by their priorities and, where these are equal, by the numbers under which they came. No
two entries have the same number, so that of any two one is the greater, and a heap can give away only one of them. From
the greatest entry on they make a line, whatever order the heap keeps them in, and the numbers can be forgotten then: an
item goes behind all that it does not outrank, and the one in front is the next to leave.

## Contents
- **Priorities.** `Score.tied`, `Agenda.ofPriority`.
- **Entries.** How two of them compare, and `QueueEntry.tops_takeGreatest`.
- **Lines.** `QueueLine.insert`, kept in order, and `QueueLine.ofPriority_insert`.
- **Heaps.** `QueueEntry.Refines`, kept by `Refines.push` and `Refines.pop`.
-/

namespace Parlance

variable {β α : Type} [Score α]

/-! ## Priorities -/

namespace Score

/-- Whether neither of two priorities is less. -/
def tied (a b : α) : Bool := !lt a b && !lt b a

theorem tied_iff {a b : α} : tied a b = true ↔ NoLess a b ∧ NoLess b a := by
  simp [tied, NoLess]

theorem tied_comm (a b : α) : tied a b = tied b a := Bool.and_comm _ _

section Ordered

variable [Ordered α] {a b c : α}

theorem NoLess.chain (ha : IsNumber a) (hb : IsNumber b) (hc : IsNumber c) (hab : NoLess a b)
    (hbc : NoLess b c) : NoLess a c := Ordered.not_lt_trans ha hb hc hab hbc

theorem tied_refl (a : α) : tied a a = true := by
  have hself : NoLess a a := Bool.eq_false_iff.mpr fun h => absurd (Ordered.lt_asymm h) (by simp [h])
  exact tied_iff.mpr ⟨hself, hself⟩

theorem tied_trans (ha : IsNumber a) (hb : IsNumber b) (hc : IsNumber c) (hab : tied a b = true)
    (hbc : tied b c = true) : tied a c = true := by
  obtain ⟨hab, hba⟩ := tied_iff.mp hab
  obtain ⟨hbc, hcb⟩ := tied_iff.mp hbc
  exact tied_iff.mpr ⟨.chain ha hb hc hab hbc, .chain hc hb ha hcb hba⟩

theorem NoLess.self (a : α) : NoLess a a := (tied_iff.mp (tied_refl a)).1

/-- What is no higher than a lower priority is lower as well. -/
theorem not_tied_of_lt {p : α} (hp : IsNumber p) (ha : IsNumber a) (hb : IsNumber b) (hc : IsNumber c)
    (hpa : tied p a = true) (hba : lt b a = true) (hbc : NoLess b c) : tied p c = false := by
  refine Bool.eq_false_iff.mpr fun hpc => ?_
  have hap : tied a p = true := by rwa [tied_comm]
  have hca : NoLess c a := (tied_iff.mp (tied_trans ha hp hc hap hpc)).2
  have hnot : lt b a = false := NoLess.chain hb hc ha hbc hca
  exact Bool.noConfusion (hba.symm.trans hnot)

end Ordered

end Score

namespace Agenda

/-- Whether two items have equal priorities. -/
def TiedEntries (e f : β × α) : Prop := Score.tied e.2 f.2 = true

/-- The items of a priority. -/
def ofPriority (p : α) (entries : List (β × α)) : List (β × α) := entries.filter fun e => Score.tied p e.2

theorem ofPriority_append (p : α) (l l' : List (β × α)) : ofPriority p (l ++ l') = ofPriority p l ++ ofPriority p l' :=
  List.filter_append l l'

/-- Whether no two items have equal priorities. -/
def Untied (entries : List (β × α)) : Prop := entries.Pairwise fun e f => Score.tied e.2 f.2 = false

end Agenda

/-! ## Entries -/

namespace QueueEntry

/-- Whether no entry of a heap is greater than this one. -/
def Tops (e : QueueEntry β α) (heap : List (QueueEntry β α)) : Prop := ∀ f ∈ heap, (f.order e).isLE = true

/-- An entry without its number. -/
def bare (e : QueueEntry β α) : β × α := (e.item, e.priority)

/-- Numbers compare as scores do. -/
theorem comparePriority_of_isNumber {a b : α} (ha : Score.IsNumber a) (hb : Score.IsNumber b) :
    comparePriority a b = Score.order a b := by
  have ha : Score.isNaN a = false := ha
  have hb : Score.isNaN b = false := hb
  simp [comparePriority, ha, hb]

/-- An entry that came later goes before another one only if its priority is higher. -/
theorem order_eq_gt_of_later {e f : QueueEntry β α} (h : f.seq < e.seq) :
    e.order f = .gt ↔ comparePriority e.priority f.priority = .gt := by
  have hseq : compare f.seq e.seq = .lt := Nat.compare_eq_lt.mpr h
  rw [order, hseq]
  cases comparePriority e.priority f.priority <;> simp [Ordering.then]

/-- Entries with different numbers are never equal. -/
theorem order_ne_eq {e f : QueueEntry β α} (h : e.seq ≠ f.seq) : e.order f ≠ .eq := by
  intro heq
  have hseq : compare f.seq e.seq = .eq := (Ordering.then_eq_eq.mp heq).2
  exact h (Nat.compare_eq_eq.mp hseq).symm

section Ordered

variable [Score.Ordered α]

theorem isLE_comparePriority {a b : α} :
    (comparePriority a b).isLE = true ↔ Score.isNaN b = true ∨ Score.IsNumber a ∧ Score.NoLess b a := by
  unfold comparePriority Score.order Score.IsNumber Score.NoLess
  cases ha : Score.isNaN a <;> cases hb : Score.isNaN b <;> try simp
  cases hba : Score.lt b a with
  | false => cases Score.lt a b <;> simp
  | true => simp [Score.Ordered.lt_asymm hba]

/-- An entry that none is greater than has a priority that no other one is above. -/
theorem Tops.noLess {e f : QueueEntry β α} {heap : List (QueueEntry β α)} (h : e.Tops heap)
    (he : Score.IsNumber e.priority) (hf : f ∈ heap) : Score.NoLess e.priority f.priority := by
  rcases isLE_comparePriority.mp (Ordering.isLE_left_of_isLE_then (h f hf)) with hnan | ⟨-, hle⟩
  · exact Bool.noConfusion (he.symm.trans hnan)
  · exact hle

/-- **Priorities compare as the elements of a linear order do**, those that are not numbers included. -/
instance : Std.TransCmp (comparePriority : α → α → Ordering) where
  eq_swap {a b} := by
    unfold comparePriority Score.order
    cases Score.isNaN a <;> cases Score.isNaN b <;> try rfl
    cases hab : Score.lt a b with
    | true => simp [Score.Ordered.lt_asymm hab]
    | false => cases Score.lt b a <;> simp
  isLE_trans {a b c} hab hbc := by
    rw [isLE_comparePriority] at hab hbc ⊢
    rcases hbc with hc | ⟨hb, hcb⟩
    · exact .inl hc
    · rcases hab with hnan | ⟨ha, hba⟩
      · exact absurd hnan (by rw [show Score.isNaN b = false from hb]; exact Bool.false_ne_true)
      · cases hc : Score.isNaN c with
        | true => exact .inl rfl
        | false => exact .inr ⟨ha, .chain hc hb ha hcb hba⟩

/-- **Entries compare as the elements of a linear order do.** -/
instance : Std.TransCmp (order : QueueEntry β α → QueueEntry β α → Ordering) where
  eq_swap {e f} := by
    have hpriority : comparePriority e.priority f.priority = (comparePriority f.priority e.priority).swap :=
      Std.OrientedCmp.eq_swap
    have hseq : compare f.seq e.seq = (compare e.seq f.seq).swap := Std.OrientedCmp.eq_swap
    rw [order, hpriority, hseq, ← Ordering.swap_then, order]
  isLE_trans {e f g} hef hfg := by
    rw [order, Ordering.isLE_then_iff_and] at hef hfg ⊢
    refine ⟨Std.TransCmp.isLE_trans hef.1 hfg.1, ?_⟩
    rcases hef.2 with hlt | hseq
    · exact .inl (Std.TransCmp.lt_of_lt_of_isLE hlt hfg.1)
    · rcases hfg.2 with hlt | hseq'
      · exact .inl (Std.TransCmp.lt_of_isLE_of_lt hef.1 hlt)
      · exact .inr (Std.TransCmp.isLE_trans hseq' hseq)

/-- **What is taken out is a greatest entry.** -/
theorem tops_takeGreatest (entry : QueueEntry β α) (rest : List (QueueEntry β α)) :
    Tops (entry.takeGreatest rest).1 (entry :: rest) := by
  induction rest generalizing entry with
  | nil =>
    intro e he
    obtain rfl := List.mem_singleton.mp he
    exact Std.ReflCmp.isLE_rfl
  | cons other rest ih =>
    intro e he
    rw [takeGreatest]
    split
    case isTrue hlt =>
      rcases List.mem_cons.mp he with rfl | he
      · exact Ordering.isLE_iff_eq_lt_or_eq_eq.mpr (.inl hlt)
      · exact ih other e he
    case isFalse hnot =>
      rcases List.mem_cons.mp he with rfl | he
      · exact Std.ReflCmp.isLE_rfl
      · -- the best of the rest is no greater than the entry
        have hbest : ((other.takeGreatest rest).1.order entry).isLE = true :=
          Std.OrientedCmp.isLE_of_isGE (Ordering.isGE_iff_ne_lt.mpr hnot)
        exact Std.TransCmp.isLE_trans (ih other e he) hbest

end Ordered

end QueueEntry

/-! ## Lines -/

namespace QueueLine

/-- Puts an item behind all items that it does not outrank. -/
def insert (item : β × α) : List (β × α) → List (β × α)
  | [] => [item]
  | other :: rest =>
    if QueueEntry.comparePriority item.2 other.2 = .gt then item :: other :: rest else other :: insert item rest

/-- Whether each item is no less than those behind it. -/
def InOrder (line : List (β × α)) : Prop := line.Pairwise fun e f => Score.NoLess e.2 f.2

theorem insert_perm (item : β × α) (line : List (β × α)) : (insert item line).Perm (item :: line) := by
  induction line with
  | nil => exact .refl _
  | cons other rest ih =>
    rw [insert]
    split
    · exact .refl _
    · exact (ih.cons other).trans (.swap item other rest)

section Ordered

variable [Score.Ordered α] {item : β × α} {line : List (β × α)}

/-- Among numbers, only a higher one outranks. -/
theorem comparePriority_eq_gt {a b : α} (ha : Score.IsNumber a) (hb : Score.IsNumber b) :
    QueueEntry.comparePriority a b = .gt ↔ Score.lt b a = true := by
  rw [QueueEntry.comparePriority_of_isNumber ha hb, Score.order]
  cases hba : Score.lt b a with
  | true => simp [Score.Ordered.lt_asymm hba]
  | false => cases Score.lt a b <;> simp

theorem InOrder.insert (hitem : Score.IsNumber item.2) (hnum : ∀ e ∈ line, Score.IsNumber e.2) (h : InOrder line) :
    InOrder (insert item line) := by
  induction line with
  | nil => exact List.pairwise_singleton _ _
  | cons other rest ih =>
    obtain ⟨hother, hrest⟩ := List.pairwise_cons.mp h
    have hotherNum : Score.IsNumber other.2 := hnum other List.mem_cons_self
    rw [QueueLine.insert]
    split
    case isTrue hgt =>
      have habove : Score.NoLess item.2 other.2 :=
        Score.Ordered.lt_asymm ((comparePriority_eq_gt hitem hotherNum).mp hgt)
      refine List.pairwise_cons.mpr ⟨fun e he => ?_, h⟩
      rcases List.mem_cons.mp he with rfl | he'
      · exact habove
      · exact .chain hitem hotherNum (hnum e he) habove (hother e he')
    case isFalse hnot =>
      have hrestNum : ∀ e ∈ rest, Score.IsNumber e.2 := fun e he => hnum e (List.mem_cons_of_mem _ he)
      refine List.pairwise_cons.mpr ⟨fun e he => ?_, ih hrestNum hrest⟩
      rcases List.mem_cons.mp ((insert_perm item rest).mem_iff.mp he) with rfl | he
      · exact Bool.eq_false_iff.mpr fun hlt => hnot ((comparePriority_eq_gt hitem hotherNum).mpr hlt)
      · exact hother e he

/-- **An item goes behind all those of its own priority.** -/
theorem ofPriority_insert {p : α} (hp : Score.IsNumber p) (hitem : Score.IsNumber item.2)
    (hnum : ∀ e ∈ line, Score.IsNumber e.2) (h : InOrder line) :
    Agenda.ofPriority p (insert item line) = Agenda.ofPriority p (line ++ [item]) := by
  induction line with
  | nil => rfl
  | cons other rest ih =>
    obtain ⟨hother, hrest⟩ := List.pairwise_cons.mp h
    have hotherNum : Score.IsNumber other.2 := hnum other List.mem_cons_self
    rw [insert]
    split
    case isTrue hgt =>
      show Agenda.ofPriority p ([item] ++ other :: rest) = _
      rw [Agenda.ofPriority_append, Agenda.ofPriority_append]
      cases htied : Score.tied p item.2 with
      | true =>
        -- all that stand behind the item have lower priorities
        have hlt : Score.lt other.2 item.2 = true := (comparePriority_eq_gt hitem hotherNum).mp hgt
        have hnone : Agenda.ofPriority p (other :: rest) = [] := by
          refine List.filter_eq_nil_iff.mpr fun e he => ?_
          have hdown : Score.NoLess other.2 e.2 := by
            rcases List.mem_cons.mp he with rfl | he
            · exact .self _
            · exact hother e he
          rw [Score.not_tied_of_lt hp hitem hotherNum (hnum e he) htied hlt hdown]
          exact Bool.false_ne_true
        rw [hnone, List.append_nil, List.nil_append]
      | false =>
        have hnone : Agenda.ofPriority p [item] = [] := by simp [Agenda.ofPriority, htied]
        rw [hnone, List.append_nil, List.nil_append]
    case isFalse hnot =>
      have hrestNum : ∀ e ∈ rest, Score.IsNumber e.2 := fun e he => hnum e (List.mem_cons_of_mem _ he)
      show Agenda.ofPriority p ([other] ++ insert item rest) = Agenda.ofPriority p ([other] ++ (rest ++ [item]))
      rw [Agenda.ofPriority_append, Agenda.ofPriority_append, ih hrestNum hrest]

end Ordered

end QueueLine

/-! ## Heaps -/

namespace QueueEntry

/-- Whether each entry is greater than those behind it. -/
def Descending (entries : List (QueueEntry β α)) : Prop := entries.Pairwise fun e f => e.order f = .gt

/-- **What a heap is to its queue**: its entries, from the greatest one on, are a line, and all their numbers have been
given out before. -/
structure Refines (heap : List (QueueEntry β α)) (seq : Nat) (line : List (β × α)) : Prop where
  inLine : ∃ entries, heap.Perm entries ∧ Descending entries ∧ entries.map bare = line
  fresh : ∀ e ∈ heap, e.seq < seq

theorem refines_nil : Refines ([] : List (QueueEntry β α)) 0 [] where
  inLine := ⟨[], .refl _, .nil, rfl⟩
  fresh _ he := nomatch he

/-- Only an empty heap is an empty line. -/
theorem Refines.length_eq {heap : List (QueueEntry β α)} {seq : Nat} {line : List (β × α)} (h : Refines heap seq line) :
    heap.length = line.length := by
  obtain ⟨entries, hperm, -, rfl⟩ := h.inLine
  rw [List.length_map, hperm.length_eq]

section Ordered

variable [Score.Ordered α] {heap rest : List (QueueEntry β α)} {seq : Nat} {line : List (β × α)} {e : QueueEntry β α}

/-- **The entry that came last has a place in the descending entries**, the one that its item has in the line. -/
theorem exists_descending_insert {entries : List (QueueEntry β α)} (h : Descending entries)
    (hlater : ∀ f ∈ entries, f.seq < e.seq) :
    ∃ entries', (e :: entries).Perm entries' ∧ Descending entries' ∧
      entries'.map bare = QueueLine.insert e.bare (entries.map bare) := by
  induction entries with
  | nil => exact ⟨[e], .refl _, List.pairwise_singleton _ _, rfl⟩
  | cons f rest ih =>
    obtain ⟨hf, hrest⟩ := List.pairwise_cons.mp h
    have hseq : f.seq < e.seq := hlater f List.mem_cons_self
    rw [List.map_cons, QueueLine.insert]
    split
    case isTrue hgt =>
      have hef : e.order f = .gt := (order_eq_gt_of_later hseq).mpr hgt
      refine ⟨e :: f :: rest, .refl _, List.pairwise_cons.mpr ⟨fun g hg => ?_, h⟩, rfl⟩
      rcases List.mem_cons.mp hg with rfl | hg
      · exact hef
      · exact Std.TransCmp.gt_trans hef (hf g hg)
    case isFalse hnot =>
      obtain ⟨entries', hperm, hdown, hline⟩ := ih hrest fun g hg => hlater g (List.mem_cons_of_mem _ hg)
      refine ⟨f :: entries', (List.Perm.swap f e rest).trans (hperm.cons f),
        List.pairwise_cons.mpr ⟨fun g hg => ?_, hdown⟩, congrArg (f.bare :: ·) hline⟩
      rcases List.mem_cons.mp (hperm.mem_iff.mpr hg) with rfl | hg
      · -- it is not the greater one, nor are the two equal
        have hle : (g.order f).isLE = true :=
          Ordering.isLE_iff_ne_gt.mpr fun hgt => hnot ((order_eq_gt_of_later hseq).mp hgt)
        have hne : g.order f ≠ .eq := order_ne_eq (Nat.ne_of_gt hseq)
        exact Std.OrientedCmp.gt_of_lt (Ordering.isLE_iff_eq_lt_or_eq_eq.mp hle |>.resolve_right hne)
      · exact hf g hg

/-- **Adding an item** puts it into the line, wherever its entry goes in the heap. -/
theorem Refines.push {heap' : List (QueueEntry β α)} (h : Refines heap seq line) (item : β) (priority : α)
    (hperm : heap'.Perm ({ priority, seq, item } :: heap)) :
    Refines heap' (seq + 1) (QueueLine.insert (item, priority) line) := by
  obtain ⟨entries, hentries, hdown, rfl⟩ := h.inLine
  obtain ⟨entries', hperm', hdown', hline⟩ := exists_descending_insert (e := { priority, seq, item }) hdown
    fun f hf => h.fresh f (hentries.mem_iff.mpr hf)
  refine ⟨⟨entries', hperm.trans ((hentries.cons _).trans hperm'), hdown', hline⟩, fun f hf => ?_⟩
  rcases List.mem_cons.mp (hperm.mem_iff.mp hf) with rfl | hf
  · exact Nat.lt_succ_self seq
  · exact Nat.lt_succ_of_lt (h.fresh f hf)

omit [Score.Ordered α] in
/-- **Taking out a greatest entry** takes the item in front of the line, whichever greatest entry it is. -/
theorem Refines.pop (h : Refines heap seq line) (hperm : heap.Perm (e :: rest))
    (htops : e.Tops heap) : ∃ line', line = e.bare :: line' ∧ Refines rest seq line' := by
  obtain ⟨entries, hentries, hdown, rfl⟩ := h.inLine
  have he : e ∈ entries := hentries.mem_iff.mp (hperm.mem_iff.mpr List.mem_cons_self)
  cases entries with
  | nil => cases he
  | cons first entries =>
    obtain ⟨hfirst, hrest⟩ := List.pairwise_cons.mp hdown
    obtain rfl : e = first := by
      rcases List.mem_cons.mp he with rfl | he
      · rfl
      · have hle := htops first (hentries.mem_iff.mpr List.mem_cons_self)
        rw [hfirst e he] at hle
        cases hle
    have hleft : rest.Perm entries := (hperm.symm.trans hentries).cons_inv
    refine ⟨entries.map bare, rfl, ⟨entries, hleft, hrest, rfl⟩, fun f hf => ?_⟩
    exact h.fresh f (hperm.mem_iff.mpr (List.mem_cons_of_mem _ hf))

end Ordered

end QueueEntry

end Parlance
