import Parlance.Chart.Basic

/-!
# `Chart.Prune` — sorting a cell and cutting it down to the beam

Pruning a cell notes how large it is, notes on its derivations where they stand before and after sorting,
sorts them by score, and drops what the beam has no room for. The largest place in the tree of a
derivation is noted as well; it tells how wide a beam the derivation needs.

## Contents
- **Places.** `notePlaces`.
- **Cutting.** `Beam.cut`.
- **Pruning.** `Chart.prune`.
-/

namespace Parlance

variable {α : Type} [Score α]

/-! ## Places -/

/-- The largest of the children's places, `-1` if there is none. -/
def childPlace (place : Derivation α → Int) (arena : Arena α) (d : Derivation α) : Int :=
  d.children.foldl (fun best c => max best (place (arena.get c))) (-1)

/-- Notes places before sorting: that of the derivation, if it has none yet, and the largest one of its
tree. -/
def noteUnsorted (arena : Arena α) (place : Nat) (i : Nat) : Arena α :=
  arena.modify i fun d =>
    { d with
      maxUnsorted := max (place : Int) (childPlace Derivation.maxUnsorted arena d)
      preSort := if d.preSort == -1 then place else d.preSort }

/-- Notes places after sorting: that of the derivation and the largest one of its tree. -/
def noteSorted (arena : Arena α) (place : Nat) (i : Nat) : Arena α :=
  arena.modify i fun d =>
    { d with
      maxBeam := max (place : Int) (childPlace Derivation.maxBeam arena d)
      postSort := place }

/-- Notes the places of a list of derivations one after the other. -/
def notePlaces (note : Arena α → Nat → Nat → Arena α) (arena : Arena α) (l : List Nat) : Arena α :=
  l.zipIdx.foldl (fun arena (i, place) => note arena place i) arena

/-! ## Cutting -/

/-- The derivations of a sorted cell that are kept. -/
def Beam.cut (beam : Beam α) (arena : Arena α) (l : List Nat) : List Nat :=
  match beam.policy with
  | .topK => l.take beam.size
  | .probDiff threshold =>
    match l with
    | [] => []
    | best :: _ =>
      (l.reverse.dropWhile fun i =>
        !Score.le (arena.score best - arena.score i) (Score.ln threshold)).reverse

/-! ## Pruning -/

/-- Disturbs the scores of derivations by random numbers, from the one with number `drawn` on. -/
def disturb (beam : Beam α) (arena : Arena α) (drawn : Nat) (l : List Nat) : Arena α :=
  l.zipIdx.foldl
    (fun arena (i, k) =>
      arena.modify i fun d => { d with score := d.score + beam.draws (drawn + k) * beam.noise })
    arena

namespace Chart

/-- Notes the size of a cell that is the largest one so far. -/
def Stats.noteCell (stats : Stats) (first last : Nat) (cat : String) (size : Nat) : Stats :=
  if stats.maxCell < size then
    { stats with maxCell := size, maxCellName := some s!"{cat}:{first}:{last}" }
  else stats

/-- Sorts a cell and cuts it down to the beam. -/
def prune (chart : Chart α) (arena : Arena α) (first last : Nat) (cat : String) :
    Chart α × Arena α :=
  let l := chart.get first last cat
  if l.isEmpty then (chart, arena)
  else
    let stats := chart.stats.noteCell first last cat l.length
    let arena := notePlaces noteUnsorted arena l
    let noisy := Score.lt Score.zero chart.beam.noise
    let drawn := if noisy then chart.drawn + l.length else chart.drawn
    let arena := if noisy then disturb chart.beam arena chart.drawn l else arena
    let sorted := arena.sort l
    let arena := notePlaces noteSorted arena sorted
    let kept := chart.beam.cut arena sorted
    let stats := { stats with fellOff := stats.fellOff || kept.length < sorted.length }
    ({ chart with stats, drawn }.setCell first last cat kept, arena)

end Chart

end Parlance
