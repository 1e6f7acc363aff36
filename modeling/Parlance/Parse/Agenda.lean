import Parlance.Score.Basic

/-!
# `Parse.Agenda` — pending work by priority

An agenda holds items with priorities and gives back the item with the highest one. There are two kinds.
A list leaves its items where they are put and looks for the best one when it is asked for it; any item can be
looked at and taken out. A queue is a heap: only the best one can be taken out. It numbers the items as they come, so
that of equal priorities the one that came first is the best.

## Contents
- **Lists.** `ListAgenda`: of equal priorities the first one in the list is the best.
- **Queues.** `QueueEntry` and how entries compare; `QueueAgenda`.
- **Either.** `Agenda`.
-/

namespace Parlance

variable {β α : Type} [Score α]

/-! ## Lists -/

/-- Items with priorities, in no particular order. -/
structure ListAgenda (β α : Type) where
  items : List (β × α) := []
  deriving Inhabited

namespace ListAgenda

/-- Puts an item at the end. -/
def add (agenda : ListAgenda β α) (item : β) (priority : α) : ListAgenda β α :=
  ⟨agenda.items ++ [(item, priority)]⟩

/-- The number of items. -/
def size (agenda : ListAgenda β α) : Nat := agenda.items.length

/-- The item at a place. -/
def get? (agenda : ListAgenda β α) (i : Nat) : Option β := agenda.items[i]?.map (·.1)

/-- Takes out the item at a place; the last item moves to that place. -/
def remove? (agenda : ListAgenda β α) (i : Nat) : Option (β × ListAgenda β α) :=
  match agenda.items[i]?, agenda.items.getLast? with
  | some (item, _), some last => some (item, ⟨(agenda.items.set i last).dropLast⟩)
  | _, _ => none

/-- The place of the first item that no other one outranks, with its priority, among the items from place
`i` on and the best one before them. -/
def bestFrom (i : Nat) (best : Option (Nat × α)) : List (β × α) → Option (Nat × α)
  | [] => best
  | (_, priority) :: rest =>
    match best with
    | none => bestFrom (i + 1) (some (i, priority)) rest
    | some (_, top) =>
      bestFrom (i + 1) (if Score.lt top priority then some (i, priority) else best) rest

/-- Takes out the best item. -/
def pop? (agenda : ListAgenda β α) : Option (β × ListAgenda β α) := do
  let (i, _) ← bestFrom 0 none agenda.items
  agenda.remove? i

/-- Puts an item into a list that starts with the lowest priority, behind all items that it outranks up to
the first one that it does not. -/
def insertAbove (item : β × α) : List (β × α) → List (β × α)
  | [] => [item]
  | other :: rest =>
    if Score.lt other.2 item.2 then other :: insertAbove item rest else item :: other :: rest

/-- Sorts the items by priority, the highest one first; equal ones keep their order. -/
def sort (agenda : ListAgenda β α) : ListAgenda β α :=
  ⟨(agenda.items.foldl (fun sorted item => insertAbove item sorted) []).reverse⟩

end ListAgenda

/-! ## Queues -/

/-- An item in a queue, with the number that the queue had for it when it came. -/
structure QueueEntry (β α : Type) where
  priority : α
  seq : Nat
  item : β

namespace QueueEntry

/-- How two priorities compare. One that is not a number is higher than all that are. -/
def comparePriority (a b : α) : Ordering :=
  if Score.isNaN a then if Score.isNaN b then .eq else .gt
  else if Score.isNaN b then .lt
  else Score.order a b

/-- How two entries compare: by their priorities, and by their numbers the other way round if these are equal. -/
def order (a b : QueueEntry β α) : Ordering :=
  (comparePriority a.priority b.priority).then (compare b.seq a.seq)

/-- A greatest one of an entry and others, and what is left without it; of several, the first one. -/
def takeGreatest (entry : QueueEntry β α) : List (QueueEntry β α) → QueueEntry β α × List (QueueEntry β α)
  | [] => (entry, [])
  | other :: rest =>
    let taken := takeGreatest other rest
    if entry.order taken.1 = .lt then (taken.1, entry :: taken.2) else (entry, other :: rest)

end QueueEntry

/-- Entries in no particular order, and the number for the next one. -/
structure QueueAgenda (β α : Type) where
  heap : List (QueueEntry β α) := []
  seq : Nat := 0
  deriving Inhabited

namespace QueueAgenda

/-- Puts an item in, under the next number. -/
def add (agenda : QueueAgenda β α) (item : β) (priority : α) : QueueAgenda β α where
  heap := { priority, seq := agenda.seq, item } :: agenda.heap
  seq := agenda.seq + 1

/-- The number of items. -/
def size (agenda : QueueAgenda β α) : Nat := agenda.heap.length

/-- Takes out the item of a greatest entry. -/
def pop? (agenda : QueueAgenda β α) : Option (β × QueueAgenda β α) :=
  match agenda.heap with
  | [] => none
  | entry :: rest =>
    let taken := entry.takeGreatest rest
    some (taken.1.item, { agenda with heap := taken.2 })

/-- Takes all items out; the numbers go on. -/
def clear (agenda : QueueAgenda β α) : QueueAgenda β α := { agenda with heap := [] }

end QueueAgenda

/-! ## Either -/

/-- A list or a queue. -/
inductive Agenda (β α : Type) where
  | list (agenda : ListAgenda β α)
  | queue (agenda : QueueAgenda β α)

namespace Agenda

/-- Puts an item in. -/
def add : Agenda β α → β → α → Agenda β α
  | list agenda, item, priority => list (agenda.add item priority)
  | queue agenda, item, priority => queue (agenda.add item priority)

/-- The number of items. -/
def size : Agenda β α → Nat
  | list agenda => agenda.size
  | queue agenda => agenda.size

/-- Takes out the best item. -/
def pop? : Agenda β α → Option (β × Agenda β α)
  | list agenda => agenda.pop?.map fun (item, agenda) => (item, list agenda)
  | queue agenda => agenda.pop?.map fun (item, agenda) => (item, queue agenda)

/-- The item at a place; a queue shows none. -/
def get? : Agenda β α → Nat → Option β
  | list agenda, i => agenda.get? i
  | queue _, _ => none

/-- Takes out the item at a place; a queue gives none away. -/
def remove? : Agenda β α → Nat → Option (β × Agenda β α)
  | list agenda, i => (agenda.remove? i).map fun (item, agenda) => (item, list agenda)
  | queue _, _ => none

/-- Sorts a list; a queue gives its best item first anyway. -/
def sort : Agenda β α → Agenda β α
  | list agenda => list agenda.sort
  | queue agenda => queue agenda

/-- Takes all items out. -/
def clear : Agenda β α → Agenda β α
  | list _ => list {}
  | queue agenda => queue agenda.clear

end Agenda

end Parlance
