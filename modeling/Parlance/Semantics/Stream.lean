import Parlance.ReadError

/-!
# `Semantics.Stream` — the results of a semantic function, one by one

A stream lists results and errors in order, together with an estimate of how many are to come. The
estimate is a promise of the function that made the stream: an upper bound that goes down by one with
each item taken.

## Contents
- **Errors.** `SemanticError` and its `message`.
- **Streams.** `empty`, `single`, `ofList`, `error`; `peek?` and `next?`.
-/

namespace Parlance

/-! ## Errors -/

/-- Why a semantic function fails. -/
inductive SemanticError where
  | arity (expected got : Nat)
  | invalid (reason : String)
  | formula (cause : ReadError)
  deriving DecidableEq, Repr

/-- The message of an error. -/
def SemanticError.message : SemanticError → String
  | arity expected got => s!"expected {expected} argument(s), got {got}"
  | invalid reason => reason
  | formula cause => cause.message

/-! ## Streams -/

/-- Results and errors to come, and how many are promised at most. -/
structure Stream (α : Type) where
  items : List (Except SemanticError α)
  estimate : Nat

namespace Stream

variable {α : Type}

/-- No results. -/
def empty : Stream α := ⟨[], 0⟩

/-- One result. -/
def single (a : α) : Stream α := ⟨[.ok a], 1⟩

/-- The results of a list. -/
def ofList (l : List α) : Stream α := ⟨l.map .ok, l.length⟩

/-- One error. -/
def error (e : SemanticError) : Stream α := ⟨[.error e], 1⟩

/-- The result of a computation, or its error. -/
def ofExcept : Except SemanticError α → Stream α
  | .ok a => single a
  | .error e => error e

/-- The next item, left in place. -/
def peek? (s : Stream α) : Option (Except SemanticError α) := s.items.head?

/-- The next item and the stream after it. -/
def next? (s : Stream α) : Option (Except SemanticError α × Stream α) :=
  match s.items with
  | [] => none
  | item :: rest => some (item, ⟨rest, s.estimate - 1⟩)

/-- Changes the next item, if it is a result. -/
def modifyNext (s : Stream α) (f : α → α) : Stream α :=
  match s.items with
  | .ok a :: rest => { s with items := .ok (f a) :: rest }
  | _ => s

end Stream

end Parlance
