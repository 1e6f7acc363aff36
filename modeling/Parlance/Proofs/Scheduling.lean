import Mathlib.Data.List.ReduceOption
import Parlance.Proofs.Queueing

/-!
# `Proofs.Scheduling` — both agendas schedule alike

A list looks through its items for the best one, and a queue takes out a greatest one of its entries. Asked the same,
from the start on, they give items of equal priorities. They need not be the same items: a list that gives one away
moves its last one, and which of two equal ones comes first is then another matter than which came in first. A queue
keeps to it, since its entries are numbered.

So what the two hold is the same but for which of the items of a priority are still there, and giving away any best item
keeps this.

## Contents
- **Requests.** `Agenda.Request`, and what an agenda gives: `Agenda.popped`, with priorities `Agenda.answers`.
- **The best item.** `ListAgenda.isBest_bestFrom`, and `Agenda.Sound.pop_spec` for both kinds.
- **Two agendas.** `Agenda.Match`, kept by `Match.add` and `Match.pop`, and `Agenda.forall₂_answers`.
- **Queues.** `Agenda.HeapRun`, for any heap: it answers as a line does, and that is `Agenda.ofPriority_lineAnswers`.
- **Both.** `Agenda.scheduleAlike`.
-/

namespace Parlance

variable {β α : Type} [Score α]

/-! ## Requests -/

namespace Agenda

/-- What is asked of an agenda. -/
inductive Request (β α : Type) where
  | add (item : β) (priority : α)
  | pop

/-- The items that are put in, with their priorities. -/
def Request.added : List (Request β α) → List (β × α)
  | [] => []
  | .add item priority :: requests => (item, priority) :: added requests
  | .pop :: requests => added requests

/-- Whether all priorities that are given are numbers. -/
def Request.Numbered (requests : List (Request β α)) : Prop := ∀ e ∈ added requests, Score.IsNumber e.2

theorem Request.Numbered.of_add {item : β} {priority : α} {requests : List (Request β α)}
    (h : Numbered (.add item priority :: requests)) : Score.IsNumber priority ∧ Numbered requests :=
  ⟨h (item, priority) List.mem_cons_self, fun e he => h e (List.mem_cons_of_mem _ he)⟩

/-- The items of an agenda with their priorities, as they are kept. -/
def items : Agenda β α → List (β × α)
  | list agenda => agenda.items
  | queue agenda => agenda.heap.map QueueEntry.bare

/-- **The item that leaves next**, with its priority. -/
def top? : Agenda β α → Option (β × α)
  | list agenda => (ListAgenda.bestFrom 0 none agenda.items).bind fun (i, _) => agenda.items[i]?
  | queue agenda =>
    match agenda.heap with
    | [] => none
    | entry :: rest => some (entry.takeGreatest rest).1.bare

/-- What a request makes of an agenda. -/
def after (agenda : Agenda β α) : Request β α → Agenda β α
  | .add item priority => agenda.add item priority
  | .pop =>
    match agenda.pop? with
    | none => agenda
    | some (_, rest) => rest

/-- **The items that an agenda gives** when it is asked to, one request after another. -/
def popped : Agenda β α → List (Request β α) → List (Option β)
  | _, [] => []
  | agenda, .add item priority :: requests => (agenda.after (.add item priority)).popped requests
  | agenda, .pop :: requests => agenda.pop?.map Prod.fst :: (agenda.after .pop).popped requests

/-- These items with their priorities. -/
def answers : Agenda β α → List (Request β α) → List (Option (β × α))
  | _, [] => []
  | agenda, .add item priority :: requests => (agenda.after (.add item priority)).answers requests
  | agenda, .pop :: requests => agenda.top? :: (agenda.after .pop).answers requests

/-- What is there in the end. -/
def afterAll (agenda : Agenda β α) (requests : List (Request β α)) : Agenda β α := requests.foldl after agenda

/-- An agenda gives the item that is next. -/
theorem map_fst_pop? (agenda : Agenda β α) : agenda.pop?.map Prod.fst = agenda.top?.map Prod.fst := by
  cases agenda with
  | list agenda =>
    show Option.map Prod.fst (((ListAgenda.bestFrom 0 none agenda.items).bind _).map _) =
      Option.map Prod.fst ((ListAgenda.bestFrom 0 none agenda.items).bind _)
    cases ListAgenda.bestFrom 0 none agenda.items with
    | none => rfl
    | some best =>
      obtain ⟨i, priority⟩ := best
      dsimp only [Option.bind_some]
      cases hitem : agenda.items[i]? with
      | none => simp [ListAgenda.remove?, hitem]
      | some entry =>
        obtain ⟨rest, hremove, -⟩ := exists_listRemove hitem
        rw [hremove]
        rfl
  | queue agenda =>
    obtain ⟨heap, seq⟩ := agenda
    cases heap <;> rfl

theorem map_fst_answers (agenda : Agenda β α) (requests : List (Request β α)) :
    (agenda.answers requests).map (Option.map Prod.fst) = agenda.popped requests := by
  induction requests generalizing agenda with
  | nil => rfl
  | cons request requests ih =>
    cases request with
    | add item priority => exact ih _
    | pop => exact congrArg₂ List.cons agenda.map_fst_pop?.symm (ih _)

end Agenda

/-! ## The best item -/

/-- The place of an item of a list that none of the list outranks, if there is any at all. -/
def ListAgenda.IsBest (l : List (β × α)) : Option (Nat × α) → Prop
  | none => l = []
  | some (i, top) => (∃ item, l[i]? = some (item, top)) ∧ ∀ e ∈ l, Score.NoLess top e.2

section Ordered

variable [Score.Ordered α]

/-- **Going on from the best item so far gives the best one of all.** -/
theorem ListAgenda.isBest_bestFrom {seen l : List (β × α)} {best : Option (Nat × α)} (h : IsBest seen best)
    (hnum : ∀ e ∈ seen ++ l, Score.IsNumber e.2) : IsBest (seen ++ l) (bestFrom seen.length best l) := by
  induction l generalizing seen best with
  | nil => rwa [List.append_nil]
  | cons entry l ih =>
    obtain ⟨item, priority⟩ := entry
    have hself : Score.NoLess priority priority := .self priority
    have hlast : (seen ++ [(item, priority)])[seen.length]? = some (item, priority) := List.getElem?_concat_length
    have hsplit : seen ++ (item, priority) :: l = seen ++ [(item, priority)] ++ l := List.append_cons _ _ _
    have hpriority : Score.IsNumber priority := hnum _ (List.mem_append_right _ List.mem_cons_self)
    rw [hsplit] at hnum ⊢
    have hgoal : ∀ best', IsBest (seen ++ [(item, priority)]) best' →
        IsBest (seen ++ [(item, priority)] ++ l) (bestFrom (seen.length + 1) best' l) := fun best' hbest' => by
      have hrest := ih hbest' hnum
      rwa [List.length_append] at hrest
    cases best with
    | none =>
      obtain rfl : seen = [] := h
      refine hgoal (some (0, priority)) ⟨⟨item, hlast⟩, fun e he => ?_⟩
      obtain rfl := List.mem_singleton.mp he
      exact hself
    | some best =>
      obtain ⟨i, top⟩ := best
      obtain ⟨⟨x, hx⟩, hbest⟩ := h
      have htop : Score.IsNumber top := by
        have hmem := List.mem_append_left [(item, priority)] (List.mem_of_getElem? hx)
        exact hnum (x, top) (List.mem_append_left l hmem)
      show IsBest _ (bestFrom (seen.length + 1) (if Score.lt top priority then _ else _) l)
      cases hlt : Score.lt top priority with
      | true =>
        refine hgoal (some (seen.length, priority)) ⟨⟨item, hlast⟩, fun e he => ?_⟩
        rcases List.mem_append.mp he with he' | he'
        · have he'' : Score.IsNumber e.2 := hnum e (List.mem_append_left l he)
          exact .chain hpriority htop he'' (Score.Ordered.lt_asymm hlt) (hbest e he')
        · obtain rfl := List.mem_singleton.mp he'
          exact hself
      | false =>
        have hget : (seen ++ [(item, priority)])[i]? = some (x, top) := by
          obtain ⟨hi, -⟩ := List.getElem?_eq_some_iff.mp hx
          rw [List.getElem?_append_left hi, hx]
        refine hgoal (some (i, top)) ⟨⟨x, hget⟩, fun e he => ?_⟩
        rcases List.mem_append.mp he with he | he
        · exact hbest e he
        · obtain rfl := List.mem_singleton.mp he
          exact hlt

end Ordered

/-- Whether all priorities in an agenda are numbers. -/
def Agenda.Sound (agenda : Agenda β α) : Prop := ∀ e ∈ agenda.items, Score.IsNumber e.2

namespace Agenda

omit [Score α] in
theorem items_add_perm (agenda : Agenda β α) (item : β) (priority : α) :
    (agenda.add item priority).items.Perm ((item, priority) :: agenda.items) := by
  cases agenda with
  | list agenda => exact List.perm_append_singleton _ _
  | queue agenda => exact .refl _

theorem Sound.add {agenda : Agenda β α} (h : agenda.Sound) (item : β) {priority : α}
    (hpriority : Score.IsNumber priority) : (agenda.add item priority).Sound := by
  intro e he
  rcases List.mem_cons.mp ((agenda.items_add_perm item priority).mem_iff.mp he) with rfl | he
  · exact hpriority
  · exact h e he

/-- What is left of an agenda of numbers is one. -/
theorem Sound.of_perm {agenda rest : Agenda β α} {e : β × α} (h : agenda.Sound)
    (hperm : agenda.items.Perm (e :: rest.items)) : rest.Sound :=
  fun f hf => h f (hperm.mem_iff.mpr (List.mem_cons_of_mem _ hf))

theorem after_of_pop {agenda rest : Agenda β α} {item : β} (h : agenda.pop? = some (item, rest)) :
    agenda.after .pop = rest := by
  unfold after
  rw [h]

/-- **What an agenda gives away**: a best item, if there is any at all, and the others stay. -/
theorem Sound.pop_spec [Score.Ordered α] {agenda : Agenda β α} (h : agenda.Sound) :
    (agenda.items = [] ∧ agenda.top? = none ∧ agenda.after .pop = agenda) ∨
      ∃ e, agenda.top? = some e ∧ agenda.items.Perm (e :: (agenda.after .pop).items) ∧
        (∀ f ∈ agenda.items, Score.NoLess e.2 f.2) ∧ (agenda.after .pop).Sound := by
  cases agenda with
  | list agenda =>
    have hnone : ListAgenda.IsBest ([] : List (β × α)) none := rfl
    have hbest : ListAgenda.IsBest agenda.items (ListAgenda.bestFrom 0 none agenda.items) :=
      ListAgenda.isBest_bestFrom hnone h
    cases hfound : ListAgenda.bestFrom 0 none agenda.items with
    | none =>
      rw [hfound] at hbest
      have htop : (list agenda).top? = none := by simp [top?, hfound]
      have hpop : (list agenda).pop? = none := by simp [pop?, ListAgenda.pop?, hfound]
      exact .inl ⟨hbest, htop, by simp [after, hpop]⟩
    | some best =>
      obtain ⟨i, top⟩ := best
      rw [hfound] at hbest
      obtain ⟨⟨item, hitem⟩, hall⟩ := hbest
      obtain ⟨rest, hremove, hperm⟩ := exists_listRemove hitem
      have htop : (list agenda).top? = some (item, top) := by simp [top?, hfound, hitem]
      have hpop : (list agenda).pop? = some (item, list rest) := by simp [pop?, ListAgenda.pop?, hfound, hremove]
      rw [after_of_pop hpop]
      exact .inr ⟨_, htop, hperm, hall, h.of_perm hperm⟩
  | queue agenda =>
    obtain ⟨heap, seq⟩ := agenda
    cases heap with
    | nil => exact .inl ⟨rfl, rfl, rfl⟩
    | cons entry heap =>
      have hperm := entry.takeGreatest_perm heap
      have hperm' : (queue ⟨entry :: heap, seq⟩ : Agenda β α).items.Perm
          ((entry.takeGreatest heap).1.bare :: (queue ⟨(entry.takeGreatest heap).2, seq⟩ : Agenda β α).items) :=
        hperm.map QueueEntry.bare
      have htop : Score.IsNumber (entry.takeGreatest heap).1.priority :=
        h _ (hperm'.mem_iff.mpr List.mem_cons_self)
      refine .inr ⟨_, rfl, hperm', fun f hf => ?_, h.of_perm hperm'⟩
      obtain ⟨e, he, rfl⟩ := List.mem_map.mp hf
      exact (entry.tops_takeGreatest heap).noLess htop he

theorem Sound.after_pop [Score.Ordered α] {agenda : Agenda β α} (h : agenda.Sound) : (agenda.after .pop).Sound := by
  rcases h.pop_spec with ⟨-, -, hafter⟩ | ⟨-, -, -, -, hsound⟩
  · rwa [hafter]
  · exact hsound

/-! ## Two agendas -/

section Simulation

variable [Score.Ordered α] {a b : Agenda β α} {requests : List (Request β α)}

omit [Score.Ordered α] in
theorem rel_tied_symm {M N : Multiset (β × α)} (h : M.Rel TiedEntries N) : N.Rel TiedEntries M := by
  refine (Multiset.rel_flip.mpr h).mono fun e _ f _ hef => ?_
  rwa [TiedEntries, Score.tied_comm]

theorem noLess_of_rel {M N : Multiset (β × α)} (h : M.Rel TiedEntries N) (hM : ∀ x ∈ M, Score.IsNumber x.2)
    (hN : ∀ x ∈ N, Score.IsNumber x.2) {e f : β × α} (he : e ∈ M) (hf : f ∈ N)
    (hbest : ∀ x ∈ N, Score.NoLess f.2 x.2) : Score.NoLess f.2 e.2 := by
  obtain ⟨f', hf', htied⟩ := Multiset.exists_mem_of_rel_of_mem h he
  exact .chain (hN f hf) (hN f' hf') (hM e he) (hbest f' hf') (Score.tied_iff.mp htied).2

/-- **Any two items of one priority can be given away.** What is left is again the same but for which items it is. -/
theorem rel_of_cons {M N : Multiset (β × α)} {e f : β × α} (h : (e ::ₘ M).Rel TiedEntries (f ::ₘ N))
    (hM : ∀ x ∈ e ::ₘ M, Score.IsNumber x.2) (hN : ∀ x ∈ f ::ₘ N, Score.IsNumber x.2) (hef : TiedEntries e f) :
    M.Rel TiedEntries N := by
  obtain ⟨f', N', hef', hrel, heq⟩ := Multiset.rel_cons_left.mp h
  rcases Multiset.cons_eq_cons.mp heq with ⟨rfl, rfl⟩ | ⟨-, K, rfl, rfl⟩
  · exact hrel
  · -- the item that went with the one was another, which may go with what went with the other
    obtain ⟨e', M', hef'', hrel', rfl⟩ := Multiset.rel_cons_right.mp hrel
    have he : Score.IsNumber e.2 := hM e (Multiset.mem_cons_self _ _)
    have he' : Score.IsNumber e'.2 := hM e' (Multiset.mem_cons_of_mem (Multiset.mem_cons_self _ _))
    have hf : Score.IsNumber f.2 := hN f (Multiset.mem_cons_self _ _)
    have hf' : Score.IsNumber f'.2 := hN f' (Multiset.mem_cons_of_mem (Multiset.mem_cons_self _ _))
    have hfe : TiedEntries f e := by rwa [TiedEntries, Score.tied_comm]
    have hefar : Score.tied e'.2 e.2 = true := Score.tied_trans he' hf he hef'' hfe
    exact .cons (Score.tied_trans he' he hf' hefar hef') hrel'

/-- **Two agendas that hold the same**, but for which of the items of a priority are there. -/
structure Match (a b : Agenda β α) : Prop where
  left : a.Sound
  right : b.Sound
  same : Multiset.Rel TiedEntries (a.items : Multiset (β × α)) b.items

theorem Match.add {a b : Agenda β α} (h : Match a b) (item : β) {priority : α} (hpriority : Score.IsNumber priority) :
    Match (a.add item priority) (b.add item priority) where
  left := h.left.add item hpriority
  right := h.right.add item hpriority
  same := by
    rw [Multiset.coe_eq_coe.mpr (a.items_add_perm item priority),
      Multiset.coe_eq_coe.mpr (b.items_add_perm item priority)]
    have hself : TiedEntries (item, priority) (item, priority) := Score.tied_refl priority
    exact .cons hself h.same

/-- Both give away an item of one priority, or neither does. -/
theorem Match.pop {a b : Agenda β α} (h : Match a b) :
    Option.Rel TiedEntries a.top? b.top? ∧ Match (a.after .pop) (b.after .pop) := by
  have hcard : a.items.length = b.items.length := Multiset.card_eq_card_of_rel h.same
  rcases h.left.pop_spec with ⟨hitems, htop, hafter⟩ | ⟨e, htop, hperm, hbest, hsound⟩
  · rcases h.right.pop_spec with ⟨-, htop', hafter'⟩ | ⟨f, -, hperm', -, -⟩
    · rw [htop, htop', hafter, hafter']
      exact ⟨.none, h⟩
    · -- the other one is not empty
      rw [hitems, hperm'.length_eq] at hcard
      cases hcard
  · rcases h.right.pop_spec with ⟨hitems', -, -⟩ | ⟨f, htop', hperm', hbest', hsound'⟩
    · rw [hitems', hperm.length_eq] at hcard
      cases hcard
    · have he : e ∈ a.items := hperm.mem_iff.mpr List.mem_cons_self
      have hf : f ∈ b.items := hperm'.mem_iff.mpr List.mem_cons_self
      have hfe := noLess_of_rel h.same h.left h.right he hf hbest'
      have hef := noLess_of_rel (rel_tied_symm h.same) h.right h.left hf he hbest
      have htied : TiedEntries e f := Score.tied_iff.mpr ⟨hef, hfe⟩
      rw [htop, htop']
      refine ⟨.some htied, hsound, hsound', ?_⟩
      have hsame := h.same
      rw [Multiset.coe_eq_coe.mpr hperm, Multiset.coe_eq_coe.mpr hperm'] at hsame
      refine rel_of_cons hsame (fun x hx => ?_) (fun x hx => ?_) htied
      · exact h.left x (hperm.mem_iff.mpr hx)
      · exact h.right x (hperm'.mem_iff.mpr hx)

/-- **Agendas that match answer alike**, whatever is asked. -/
theorem forall₂_answers {a b : Agenda β α} {requests : List (Request β α)} (h : Match a b)
    (hnum : Request.Numbered requests) :
    List.Forall₂ (Option.Rel TiedEntries) (a.answers requests) (b.answers requests) := by
  induction requests generalizing a b with
  | nil => exact .nil
  | cons request requests ih =>
    cases request with
    | add item priority =>
      obtain ⟨hpriority, hrest⟩ := hnum.of_add
      exact ih (h.add item hpriority) hrest
    | pop =>
      obtain ⟨htop, hrest⟩ := h.pop
      exact .cons htop (ih hrest hnum)

/-- **No item is lost, and none is made up**: what has been given away and what is still there is what was put in. -/
theorem perm_answers {agenda : Agenda β α} (h : agenda.Sound) (hnum : Request.Numbered requests) :
    ((agenda.answers requests).reduceOption ++ (agenda.afterAll requests).items).Perm
      (agenda.items ++ Request.added requests) := by
  induction requests generalizing agenda with
  | nil => exact (List.append_nil _).symm ▸ .refl _
  | cons request requests ih =>
    cases request with
    | add item priority =>
      obtain ⟨hpriority, hrest⟩ := hnum.of_add
      have hadd := (agenda.items_add_perm item priority).append_right (Request.added requests)
      exact (ih (h.add item hpriority) hrest).trans (hadd.trans List.perm_middle.symm)
    | pop =>
      show ((agenda.top? :: (agenda.after .pop).answers requests).reduceOption ++
        ((agenda.after .pop).afterAll requests).items).Perm _
      rcases h.pop_spec with ⟨-, htop, hafter⟩ | ⟨e, htop, hperm, -, hsound⟩
      · rw [htop, hafter]
        exact ih h hnum
      · rw [htop]
        have hrest := ih hsound hnum
        exact (hrest.cons e).trans (hperm.symm.append_right _)

omit [Score.Ordered α] in
theorem eq_of_tied {l : List (β × α)} (h : Untied l) {e f : β × α} (he : e ∈ l) (hf : f ∈ l) (htied : TiedEntries e f) :
    e = f := by
  by_contra hne
  have hsymm : Std.Symm fun e f : β × α => Score.tied e.2 f.2 = false :=
    ⟨fun e f hef => by rw [← hef, Score.tied_comm]⟩
  have hnot : Score.tied e.2 f.2 = false := List.Pairwise.forall h he hf hne
  exact Bool.noConfusion (htied.symm.trans hnot)

omit [Score.Ordered α] in
/-- Where no two items have the same priority, the items themselves are the same. -/
theorem eq_of_forall₂ {l : List (β × α)} (h : Untied l) {as bs : List (Option (β × α))}
    (hall : List.Forall₂ (Option.Rel TiedEntries) as bs) (has : ∀ e ∈ as.reduceOption, e ∈ l)
    (hbs : ∀ e ∈ bs.reduceOption, e ∈ l) : as = bs := by
  induction hall with
  | nil => rfl
  | cons htop hrest ih =>
    cases htop with
    | none => rw [ih has hbs]
    | some htied =>
      have htail := ih (fun e he => has e (List.mem_cons_of_mem _ he)) fun e he => hbs e (List.mem_cons_of_mem _ he)
      rw [eq_of_tied h (has _ List.mem_cons_self) (hbs _ List.mem_cons_self) htied, htail]

/-! ## Queues -/

/-- **What any heap answers**, as far as it can be told: it keeps what is put in wherever it likes, each item under the
next number, and when it is asked for one it gives away an entry that no other one is greater than. -/
inductive HeapRun : List (QueueEntry β α) → Nat → List (Request β α) → List (Option (β × α)) → Prop
  | done {heap seq} : HeapRun heap seq [] []
  | add {heap heap' seq item priority requests answers} (kept : heap'.Perm ({ priority, seq, item } :: heap))
      (rest : HeapRun heap' (seq + 1) requests answers) : HeapRun heap seq (.add item priority :: requests) answers
  | empty {seq requests answers} (rest : HeapRun [] seq requests answers) :
      HeapRun [] seq (.pop :: requests) (none :: answers)
  | pop {heap left seq e requests answers} (taken : heap.Perm (e :: left)) (tops : e.Tops heap)
      (rest : HeapRun left seq requests answers) : HeapRun heap seq (.pop :: requests) (some e.bare :: answers)

/-- What a line answers: the item in front. -/
def lineAnswers : List (β × α) → List (Request β α) → List (Option (β × α))
  | _, [] => []
  | line, .add item priority :: requests => lineAnswers (QueueLine.insert (item, priority) line) requests
  | [], .pop :: requests => none :: lineAnswers [] requests
  | e :: line, .pop :: requests => some e :: lineAnswers line requests

/-- **A heap answers as its line does**, whichever greatest entries it gives away and wherever it keeps the others. -/
theorem HeapRun.eq_lineAnswers {heap : List (QueueEntry β α)} {seq : Nat} {line : List (β × α)}
    {answers : List (Option (β × α))} (hrun : HeapRun heap seq requests answers)
    (h : QueueEntry.Refines heap seq line) : answers = lineAnswers line requests := by
  induction hrun generalizing line with
  | done => rw [lineAnswers]
  | add kept _ ih =>
    rw [lineAnswers]
    exact ih (h.push _ _ kept)
  | empty _ ih =>
    obtain rfl : line = [] := List.eq_nil_of_length_eq_zero h.length_eq.symm
    rw [lineAnswers, ih h]
  | pop taken tops _ ih =>
    obtain ⟨line, rfl, hrest⟩ := h.pop taken tops
    rw [lineAnswers, ih hrest]

/-- The queue is such a heap. -/
theorem heapRun_answers (agenda : QueueAgenda β α) (requests : List (Request β α)) :
    HeapRun agenda.heap agenda.seq requests ((queue agenda).answers requests) := by
  induction requests generalizing agenda with
  | nil => exact .done
  | cons request requests ih =>
    cases request with
    | add item priority => exact .add (.refl _) (ih (agenda.add item priority))
    | pop =>
      obtain ⟨heap, seq⟩ := agenda
      cases heap with
      | nil => exact .empty (ih ⟨[], seq⟩)
      | cons entry heap =>
        exact .pop (entry.takeGreatest_perm heap) (entry.tops_takeGreatest heap) (ih ⟨_, seq⟩)

/-- **A queue is a line**: it answers what a list answers that is kept in order. -/
theorem answers_queue (requests : List (Request β α)) : (queue {}).answers requests = lineAnswers [] requests :=
  (heapRun_answers {} requests).eq_lineAnswers QueueEntry.refines_nil

/-- **First come, first served**: the items of a priority leave a line in the order in which they stand in it and
come. -/
theorem ofPriority_lineAnswers {line : List (β × α)} (hline : QueueLine.InOrder line)
    (hnumbers : ∀ e ∈ line, Score.IsNumber e.2) (hnum : Request.Numbered requests) {p : α} (hp : Score.IsNumber p) :
    ofPriority p (lineAnswers line requests).reduceOption <+: ofPriority p (line ++ Request.added requests) := by
  induction requests generalizing line with
  | nil =>
    rw [lineAnswers]
    exact List.nil_prefix
  | cons request requests ih =>
    cases request with
    | add item priority =>
      obtain ⟨hpriority, hrest⟩ := hnum.of_add
      have hnumbers' : ∀ e ∈ QueueLine.insert (item, priority) line, Score.IsNumber e.2 := by
        intro e he
        rcases List.mem_cons.mp ((QueueLine.insert_perm _ line).mem_iff.mp he) with rfl | he
        · exact hpriority
        · exact hnumbers e he
      have hinsert : ofPriority p (QueueLine.insert (item, priority) line) =
          ofPriority p (line ++ [(item, priority)]) :=
        QueueLine.ofPriority_insert hp hpriority hnumbers hline
      have hprefix := ih (hline.insert hpriority hnumbers) hnumbers' hrest
      rw [ofPriority_append, hinsert, ← ofPriority_append, ← List.append_cons] at hprefix
      rwa [lineAnswers]
    | pop =>
      cases line with
      | nil =>
        rw [lineAnswers]
        exact ih hline hnumbers hnum
      | cons e line =>
        obtain ⟨-, hline⟩ := List.pairwise_cons.mp hline
        have hprefix := ih hline (fun f hf => hnumbers f (List.mem_cons_of_mem _ hf)) hnum
        rw [lineAnswers]
        show ofPriority p ([e] ++ (lineAnswers line requests).reduceOption) <+: ofPriority p ([e] ++ (line ++ _))
        rw [ofPriority_append, ofPriority_append p [e]]
        exact (List.prefix_append_right_inj _).mpr hprefix

/-! ## Both -/

/-- Whether what is asked for next is a best item of those that are there, if any are. -/
def GivesBest (agenda : Agenda β α) : Prop :=
  (agenda.items = [] ∧ agenda.top? = none) ∨
    ∃ e ∈ agenda.items, agenda.top? = some e ∧ ∀ f ∈ agenda.items, Score.NoLess e.2 f.2

theorem Sound.givesBest {agenda : Agenda β α} (h : agenda.Sound) : agenda.GivesBest := by
  rcases h.pop_spec with ⟨hitems, htop, -⟩ | ⟨e, htop, hperm, hbest, -⟩
  · exact .inl ⟨hitems, htop⟩
  · exact .inr ⟨e, hperm.mem_iff.mpr List.mem_cons_self, htop, hbest⟩

theorem Sound.afterAll {agenda : Agenda β α} (h : agenda.Sound) (hnum : Request.Numbered requests) :
    (agenda.afterAll requests).Sound := by
  induction requests generalizing agenda with
  | nil => exact h
  | cons request requests ih =>
    cases request with
    | add item priority =>
      obtain ⟨hpriority, hrest⟩ := hnum.of_add
      exact ih (h.add item hpriority) hrest
    | pop =>
      exact ih h.after_pop hnum

omit [Score.Ordered α] in
theorem sound_list : (list {} : Agenda β α).Sound := fun _ he => nomatch he

omit [Score.Ordered α] in
theorem sound_queue : (queue {} : Agenda β α).Sound := fun _ he => nomatch he

/-- **What is the same of both agendas**, if they are asked the same from the start on. -/
structure ScheduleAlike (requests : List (Request β α)) : Prop where
  /-- Each time that an item is asked for, both give one, or neither does, and the priorities are equal. -/
  priorities : List.Forall₂ (Option.Rel TiedEntries) ((list {}).answers requests) ((queue {}).answers requests)
  /-- Unless two items have the same priority, they give the same items. -/
  items : Untied (Request.added requests) → (list {}).popped requests = (queue {}).popped requests
  /-- The answers are what is given. -/
  popped : ∀ agenda : Agenda β α, (agenda.answers requests).map (Option.map Prod.fst) = agenda.popped requests
  /-- What has been given and what is left is what was put in. -/
  list_perm : (((list {}).answers requests).reduceOption ++ ((list {}).afterAll requests).items).Perm
    (Request.added requests)
  queue_perm : (((queue {}).answers requests).reduceOption ++ ((queue {}).afterAll requests).items).Perm
    (Request.added requests)
  /-- What is next is a best item of those that are there. -/
  list_best : ((list {}).afterAll requests).GivesBest
  queue_best : ((queue {}).afterAll requests).GivesBest
  /-- A queue gives the items of a priority in the order in which they were put in. -/
  inOrder : ∀ p, Score.IsNumber p →
    ofPriority p ((queue {}).answers requests).reduceOption <+: ofPriority p (Request.added requests)
  /-- It does not matter where a heap keeps its entries, nor which greatest one it gives away. -/
  anyHeap : ∀ answers, HeapRun [] 0 requests answers → answers = (queue {}).answers requests

/-- **Both agendas schedule alike.** -/
theorem scheduleAlike (requests : List (Request β α)) (hnum : Request.Numbered requests) : ScheduleAlike requests := by
  have hmatch : Match (list {} : Agenda β α) (queue {}) := ⟨sound_list, sound_queue, .zero⟩
  have hpriorities := forall₂_answers hmatch hnum
  have hlist := perm_answers sound_list hnum
  have hqueue := perm_answers sound_queue hnum
  refine ⟨hpriorities, ?_, ?_, hlist, hqueue, ?_, ?_, ?_, ?_⟩
  · intro huntied
    have hsame := eq_of_forall₂ huntied hpriorities (fun e he => hlist.subset (List.mem_append_left _ he))
      fun e he => hqueue.subset (List.mem_append_left _ he)
    rw [← map_fst_answers, hsame, map_fst_answers]
  · intro agenda
    exact agenda.map_fst_answers requests
  · exact (sound_list.afterAll hnum).givesBest
  · exact (sound_queue.afterAll hnum).givesBest
  · intro p hp
    rw [answers_queue]
    exact ofPriority_lineAnswers List.Pairwise.nil (fun _ he => nomatch he) hnum hp
  · intro answers hrun
    rw [answers_queue, hrun.eq_lineAnswers QueueEntry.refines_nil]

/-- Two items of one priority, and others. -/
def sampleRequests : List (Request String Float) :=
  [.add "b" 1, .add "a" 3, .add "c" 3, .pop, .add "d" (-1), .pop, .pop]

theorem scheduleAlike_sample : Request.Numbered sampleRequests ∧ ScheduleAlike sampleRequests ∧
    (queue {}).popped sampleRequests = [some "a", some "c", some "b"] := by
  have hall : ((Request.added sampleRequests).all fun e => !Score.isNaN e.2) = true := by decide +kernel
  have hnum : Request.Numbered sampleRequests := fun e he => by
    have hnot : (!Score.isNaN e.2) = true := List.all_eq_true.mp hall e he
    rwa [Bool.not_eq_true'] at hnot
  exact ⟨hnum, scheduleAlike sampleRequests hnum, by decide +kernel⟩

end Simulation

end Agenda

end Parlance
