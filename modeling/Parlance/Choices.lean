/-!
# `Choices` — one item from each list

All ways to pick one item from each of several lists, the pick from the first list changing fastest.
No list at all offers nothing to pick.
-/

namespace Parlance

/-- The ways to pick one item from each list; there are none if there is no list. -/
def choices {α : Type} : List (List α) → List (List α)
  | [] => []
  | [options] => options.map fun a => [a]
  | options :: rest => (choices rest).flatMap fun picked => options.map fun a => a :: picked

end Parlance
