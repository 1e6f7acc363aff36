import Parlance.Parse.Progress
import Parlance.Parse.Trie

/-!
# `Parse.BottomUp` — filling the chart from short spans to long ones

For each span, the rules are applied in three steps. First come the rules that cover the span with two or more
parts, or with a token: their parts lie in cells that are complete. Then come the rules that take one symbol
which is not a category, but is the left-hand side of rules over the whole span. Last come the rules from one
category to one category; they are sorted so that a cell is complete, and cut down to the beam, before it is
used.

## Contents
- **Coverings.** `coverings`, the ways to cover a span; `wholeSpan`, those with one part.
- **Applying.** `addResults`, `apply`, `applyAll`.
- **Spans.** `applyUnary`, `pruneOnce`, `buildSpan`.
- **Texts.** `run`.
-/

namespace Parlance.BottomUp

open Progress

variable {α : Type} [Score α]

/-! ## Coverings -/

/-- The rules that end at a node, applied to the derivations on the way to it. -/
def endings (task : Task α) (first last : Nat) (trie : Trie) (children : List Nat) :
    List Application :=
  (trie.rules.filter fun r => task.canBuild r.rule first last).map fun r =>
    { rule := r.rule, first, last, children }

/-- The ways to cover a span from position `i` on, with tokens and with derivations of smaller spans, along
the symbols of a trie. `children` are the derivations used so far. -/
def coverings (task : Task α) (chart : Chart α) (first last i : Nat) (trie : Trie)
    (children : List Nat) : List Application :=
  if !task.allowsAny trie.cats first last then []
  else if last ≤ i then endings task first last trie children
  else
    (match trie.next? (task.ex.token i) with
      | some next => coverings task chart first last (i + 1) next children
      | none => []) ++
    (List.range (last - i)).flatMap fun k =>
      let j := i + k + 1
      if i = first ∧ j = last then []
      else
        (chart.entries i j).flatMap fun (cat, l) =>
          match trie.next? cat with
          | some next => l.flatMap fun d => coverings task chart first last j next (children ++ [d])
          | none => []
termination_by last - i

/-- The ways to cover a span with one derivation of the whole span, by rules in the trie. -/
def wholeSpan (task : Task α) (chart : Chart α) (first last : Nat) (trie : Trie) :
    List Application :=
  if !task.allowsAny trie.cats first last then []
  else
    (chart.entries first last).flatMap fun (cat, l) =>
      match trie.next? cat with
      | some next =>
        if task.allowsAny next.cats first last then
          l.flatMap fun d => endings task first last next [d]
        else []
      | none => []

/-! ## Applying -/

/-- Adds results to the chart one by one, until an error comes or the limit is reached. -/
def addResults (task : Task α) (a : Application) :
    List (Except SemanticError Candidate) → Progress α → Except ParseError (Progress α)
  | [], p => .ok p
  | .error cause :: _, p => .error (p.failure a cause)
  | .ok candidate :: rest, p =>
    let (d, p) := p.make task a candidate
    let (d, p) := p.featurize task d
    let p := p.addToChart task d
    if p.limitReached task then .ok p else addResults task a rest p

/-- Applies a rule, unless the limit is reached. -/
def apply (task : Task α) (p : Progress α) (a : Application) : Except ParseError (Progress α) :=
  if p.limitReached task then .ok p else addResults task a (p.results task a).items p

/-- Applies rules one after the other. -/
def applyAll (task : Task α) (p : Progress α) (l : List Application) :
    Except ParseError (Progress α) :=
  l.foldlM (apply task) p

/-! ## Spans -/

/-- Cuts a cell down to the beam, unless that was done. `pruned` are the categories of the cells where it
was. -/
def pruneOnce (first last : Nat) (state : Progress α × List String) (cat : String) :
    Progress α × List String :=
  let (p, pruned) := state
  if pruned.contains cat then state
  else
    let (chart, arena) := p.chart.prune p.arena first last cat
    ({ p with chart, arena }, cat :: pruned)

/-- Applies a rule from one category to one category to all derivations that are in the beam. -/
def applyUnary (task : Task α) (first last : Nat) (state : Progress α × List String) (rule : Rule) :
    Except ParseError (Progress α × List String) :=
  if !task.canBuild rule first last then .ok state
  else do
    let cat := (rule.rhs.head?).getD ""
    let (p, pruned) := pruneOnce first last state cat
    let l := (p.chart.get first last cat).map fun d =>
      ({ rule, first, last, children := [d] } : Application)
    return (← applyAll task p l, pruned)

/-- Finds all derivations of a span, given those of all shorter spans. -/
def buildSpan (task : Task α) (trie : Trie) (unaries : List Rule) (p : Progress α)
    (span : Nat × Nat) : Except ParseError (Progress α) := do
  let (first, last) := span
  let p ← applyAll task p (coverings task p.chart first last first trie [])
  let p ← applyAll task p (wholeSpan task p.chart first last trie)
  let (p, pruned) ← unaries.foldlM (applyUnary task first last) (p, [])
  return ((p.chart.cats first last).foldl (pruneOnce first last) (p, pruned)).1

/-! ## Texts -/

/-- The parse that has the tokens and phrases. -/
def seed (task : Task α) : Progress α :=
  (terminalDerivations task).foldl
    (fun p d =>
      let (d, p) := p.featurize task d
      p.addToChart task d)
    (startWithTerminals task)

/-- Parses a text. -/
def run (task : Task α) (trie : Trie) (unaries : List Rule) : Except ParseError (Progress α) :=
  (spansByLength task.length).foldlM (buildSpan task trie unaries) (seed task)

end Parlance.BottomUp
