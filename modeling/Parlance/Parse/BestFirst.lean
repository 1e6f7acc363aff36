import Parlance.Parse.Agenda
import Parlance.Parse.Progress
import Parlance.Parse.Siblings
import Parlance.Score.Softmax

/-!
# `Parse.BestFirst` — building the best derivations first

Rules that can be applied wait on an agenda. Each of them waits with the next derivation that it makes, under
the score of that derivation. A step takes one from the agenda and adds its derivation to the chart; if there
is room for it, all rules that combine it with derivations next to it are applied. Then the rule waits
again, with its next derivation.

The search is over when the cell of the root is full, when nothing waits any more, or when the limit is
reached.

## Contents
- **States.** `Options`, `Pending`, `Search`.
- **Waiting.** `push`, which makes the next derivation; `pop?`.
- **Combining.** `rightward`, `leftward`, `combinations`.
- **Searching.** `seed`, `step`, `search`, `run`.
-/

namespace Parlance.BestFirst

open Progress

variable {α : Type} [Score α]

/-! ## States -/

/-- How the agenda is used. -/
structure Options (α : Type) where
  /-- Items are drawn at random, by these numbers between zero and one, instead of taken by priority. -/
  sample : Option (Nat → α) := none
  /-- A rule that promises several results waits once for each of them. -/
  unroll : Bool := false

/-- A rule that was applied, with the next derivation that it makes and its later results. -/
structure Pending (α : Type) where
  application : Application
  next : Derivation α
  rest : Stream Candidate

/-- The state of a search. -/
structure Search (α : Type) where
  progress : Progress α
  agenda : Agenda (Pending α) α
  /-- How many items were put on the agenda. -/
  pushed : Nat
  /-- How many random numbers were used. -/
  drawn : Nat

/-! ## Waiting -/

/-- How much less an item is worth than one that was pushed just before it with the same score. -/
def delay : α := Score.ofFloat 10e-20

/-- The number of pushes after which the agenda is sorted. -/
def sortInterval : Nat := 100

/-- Puts an item on the agenda, unless its score is minus infinity. -/
def enqueue (s : Search α) (item : Pending α) : Search α :=
  let score := item.next.score
  if Score.eq score Score.negInf then s
  else
    let agenda := s.agenda.add item (score - Score.ofNat s.pushed * delay)
    let pushed := s.pushed + 1
    { s with agenda := if pushed % sortInterval = 0 then agenda.sort else agenda, pushed }

/-- Puts a derivation on the agenda, scored, with the results that come after it. -/
def pushDerivation (task : Task α) (s : Search α) (a : Application) (d : Derivation α)
    (rest : Stream Candidate) : Search α :=
  let (d, progress) := s.progress.featurize task d
  enqueue { s with progress } { application := a, next := d, rest }

/-- Puts each result of a rule on the agenda by itself. -/
def pushEach (task : Task α) (a : Application) :
    List (Except SemanticError Candidate) → Search α → Except ParseError (Search α)
  | [], s => .ok s
  | .error cause :: _, s => .error (s.progress.failure a cause)
  | .ok candidate :: rest, s =>
    let (d, progress) := s.progress.make task a candidate
    pushEach task a rest (pushDerivation task { s with progress } a d .empty)

/-- Makes the next derivation of a rule and puts it on the agenda. -/
def pushNext (task : Task α) (s : Search α) (a : Application) (results : Stream Candidate) :
    Except ParseError (Search α) :=
  match results.next? with
  | none => .ok s
  | some (.error cause, _) => .error (s.progress.failure a cause)
  | some (.ok candidate, rest) =>
    let (d, progress) := s.progress.make task a candidate
    .ok (pushDerivation task { s with progress } a d rest)

/-- Puts a rule with its results on the agenda. -/
def push (options : Options α) (task : Task α) (s : Search α) (a : Application)
    (results : Stream Candidate) : Except ParseError (Search α) :=
  if options.unroll && results.estimate > 1 then pushEach task a results.items s
  else pushNext task s a results

/-- Applies a rule and puts it on the agenda. -/
def pushApplication (options : Options α) (task : Task α) (s : Search α) (a : Application) :
    Except ParseError (Search α) :=
  push options task s a (s.progress.results task a)

/-- The place where a number between zero and one falls among probabilities, from place `i` on; the last
place if it falls behind all of them. -/
def choose (draw : α) (i : Nat) : List α → Nat
  | [] => i - 1
  | p :: rest => if Score.lt draw p then i else choose (draw - p) (i + 1) rest

/-- Takes an item from the agenda. -/
def pop? (options : Options α) (s : Search α) : Option (Pending α × Search α) :=
  match options.sample with
  | none => s.agenda.pop?.map fun (item, agenda) => (item, { s with agenda })
  | some draws =>
    let scores := (List.range s.agenda.size).filterMap fun i =>
      (s.agenda.get? i).map fun item => item.next.score
    let place := choose (draws s.drawn) 0 (Score.probabilities scores Score.one)
    (s.agenda.remove? place).map fun (item, agenda) =>
      (item, { s with agenda, drawn := s.drawn + 1 })

/-! ## Combining -/

/-- The rules that may be used over a span, each applied to each of several lists of children. -/
def applications (task : Task α) (rules : List Rule) (first last : Nat)
    (children : List (List Nat)) : List Application :=
  (rules.filter fun rule => task.canBuild rule first last).flatMap fun rule =>
    children.map fun children => { rule, first, last, children }

/-- The rules that combine a derivation with what stands to its right: derivations of any length, shorter
ones first, or the next token. -/
def rightward (index : SiblingIndex) (task : Task α) (p : Progress α) (i : Nat) : List Application :=
  let d := p.arena.get i
  match index.rightOf.get? d.cat with
  | none => []
  | some siblings =>
    ((List.range (task.length - d.last)).flatMap fun k =>
      let last := d.last + k + 1
      siblings.toList.flatMap fun (cat, rules) =>
        applications task rules d.first last ((p.chart.get d.last last cat).map fun c => [i, c])) ++
    if d.last < task.length then
      let token := task.ex.info.phrase d.last (d.last + 1)
      applications task ((siblings.get? token).getD []) d.first (d.last + 1) [[i]]
    else []

/-- The rules that combine a derivation with what stands to its left: derivations of any length, shorter
ones first, or the token before it. -/
def leftward (index : SiblingIndex) (task : Task α) (p : Progress α) (i : Nat) : List Application :=
  let d := p.arena.get i
  match index.leftOf.get? d.cat with
  | none => []
  | some siblings =>
    ((List.range d.first).reverse.flatMap fun first =>
      siblings.toList.flatMap fun (cat, rules) =>
        applications task rules first d.last ((p.chart.get first d.first cat).map fun c => [c, i])) ++
    if 0 < d.first then
      let token := task.ex.info.phrase (d.first - 1) d.first
      applications task ((siblings.get? token).getD []) (d.first - 1) d.last [[i]]
    else []

/-- The rules that take a new derivation together with what is in the chart next to it. -/
def combinations (index : SiblingIndex) (task : Task α) (p : Progress α) (i : Nat) :
    List Application :=
  let d := p.arena.get i
  rightward index task p i ++ leftward index task p i ++
    applications task ((index.unary.get? d.cat).getD []) d.first d.last [[i]]

/-! ## Searching -/

/-- The search that has not begun. -/
def start (options : Options α) (task : Task α) : Search α where
  progress := startWithTerminals task
  agenda := if options.sample.isSome then .list {} else .queue {}
  pushed := 0
  drawn := 0

/-- The rules that rewrite to the tokens of a span. -/
def literalApplications (index : SiblingIndex) (task : Task α) : List Application :=
  (spansByStart task.length).flatMap fun (first, last) =>
    applications task (index.literalRules (task.ex.info.phrase first last)) first last [[]]

/-- The search in which the tokens, the phrases, and the rules that rewrite to tokens wait. -/
def seed (options : Options α) (index : SiblingIndex) (task : Task α) :
    Except ParseError (Search α) :=
  let none : Application := { rule := .null, first := 0, last := 0, children := [] }
  let s := (terminalDerivations task).foldl (fun s d => pushDerivation task s none d .empty)
    (start options task)
  (literalApplications index task).foldlM (pushApplication options task) s

/-- Whether there is more to search for. -/
def continues (task : Task α) (s : Search α) : Bool :=
  s.agenda.size != 0 && task.length != 0 && s.progress.roots.length < s.progress.chart.beam.size

/-- Adds the derivation of an item to the chart, and puts what follows from it on the agenda. -/
def step (options : Options α) (index : SiblingIndex) (task : Task α) (item : Pending α)
    (s : Search α) : Except ParseError (Search α) := do
  let (added, progress) := s.progress.addToBoundedChart item.next
  let s := { s with progress }
  let s ←
    match added with
    | some i =>
      (combinations index task progress i).foldlM (pushApplication options task) s
    | none => pure s
  push options task s item.application item.rest

/-- Searches for at most `fuel` steps. -/
def search (options : Options α) (index : SiblingIndex) (task : Task α) :
    Nat → Search α → Except ParseError (Search α)
  | 0, _ => .error .exhausted
  | fuel + 1, s =>
    if !continues task s then .ok s
    else
      match pop? options s with
      | none => .ok s
      | some (item, s) => do
        let s ← step options index task item s
        if s.progress.limitReached task then return s else search options index task fuel s

/-- Computes the scores of the roots anew from their trees, and sorts them. -/
def rerank (task : Task α) (p : Progress α) : Progress α :=
  let arena := p.roots.foldl (fun arena i => (arena.rescore task.weights i).1) p.arena
  { p with arena, chart := p.chart.sortCell arena 0 task.length rootCat }

/-- Parses a text in at most `fuel` steps. -/
def run (options : Options α) (index : SiblingIndex) (task : Task α) (fuel : Nat) :
    Except ParseError (Progress α) := do
  let s ← search options index task fuel (← seed options index task)
  return rerank task s.progress

end Parlance.BestFirst
