import Parlance.Example
import Parlance.Grid
import Parlance.Parse.UnaryOrder

/-!
# `Parse.Coarse` — which categories can matter where

A coarse parse asks only which categories can cover which spans, without meanings and scores. It notes for each
category over a span what it can be made of; in the end it keeps what the root category over the whole text
can be made of. A parser that builds nothing else builds the same roots.

## Contents
- **Rules.** `CoarseParser`, `CoarseParser.ofRules`.
- **Charts.** `CatSpan`, `CoarseChart`, `allows`.
- **Bottom up.** `addBinary`, `addUnary`, `fill`.
- **Top down.** `reach`, `keepReachable`, and `CoarseParser.parse`.
-/

namespace Parlance

/-! ## Rules -/

/-- The rules of a grammar, as a coarse parse looks at them. -/
structure CoarseParser where
  /-- The categories made of two symbols, by the left one and the right one. -/
  pairs : Table (Table (List String))
  /-- The rules from one category to one category, in order. -/
  unaries : List Rule
  /-- The other rules with fewer than two symbols. -/
  literals : List Rule

namespace CoarseParser

/-- Adds a rule of two symbols. -/
def addPair (pairs : Table (Table (List String))) (left right lhs : String) :
    Table (Table (List String)) :=
  pairs.update left fun old => (old.getD .empty).update right fun cats =>
    let cats := cats.getD []
    if cats.contains lhs then cats else cats ++ [lhs]

/-- The pairs of a list of rules. -/
def pairsOf (rules : List Rule) : Table (Table (List String)) :=
  rules.foldl
    (fun pairs rule =>
      match rule.rhs with
      | [left, right] => addPair pairs left right rule.lhs
      | _ => pairs)
    .empty

/-- The coarse parser of rules with at most two symbols each. -/
def ofRules (rules : List Rule) : Except GrammarError CoarseParser :=
  match rules.find? fun rule => rule.rhs.length > 2 with
  | some rule => .error (.binarize rule.text "the coarse parser needs a binarized grammar")
  | none => do
    let unaries ← UnaryOrder.sort rules
    return {
      pairs := pairsOf rules
      unaries
      literals := rules.filter fun rule => !rule.isCatUnary && rule.rhs.length != 2 }

end CoarseParser

/-! ## Charts -/

/-- A category, or a token, over a span. -/
structure CatSpan where
  cat : String
  first : Nat
  last : Nat
  deriving DecidableEq, Inhabited, Repr

/-- The categories over each span, with what they can be made of. -/
structure CoarseChart where
  length : Nat
  cells : Grid (Table (List CatSpan))
  deriving Inhabited

namespace CoarseChart

/-- The categories over a span with what they can be made of. -/
def cell (chart : CoarseChart) (first last : Nat) : Table (List CatSpan) :=
  (chart.cells.get? first last).getD .empty

/-- Whether a category can cover a span. -/
def allows (chart : CoarseChart) (cat : String) (first last : Nat) : Bool :=
  (chart.cell first last).contains cat

/-- The number of categories over all spans. -/
def size (chart : CoarseChart) : Nat :=
  (chart.cells.toList.flatMap fun (_, _, cell) => cell.keys).length

/-- Adds a category over a span, with more that it can be made of. -/
def add (chart : CoarseChart) (cat : String) (first last : Nat) (children : List CatSpan) :
    CoarseChart :=
  { chart with
    cells := chart.cells.modify first last fun cell =>
      cell.update cat fun old => old.getD [] ++ children }

/-- The chart that has the tokens and phrases of a text. -/
def seed (n : Nat) : CoarseChart :=
  let chart : CoarseChart := { length := n, cells := .replicate n .empty }
  let chart := (List.range n).foldl
    (fun chart i => (chart.add tokenCat i (i + 1) []).add lemmaTokenCat i (i + 1) []) chart
  (spansByStart n).foldl
    (fun chart (first, last) => (chart.add phraseCat first last []).add lemmaPhraseCat first last [])
    chart

/-! ## Bottom up -/

/-- What may stand on one side of a pair: a category over the span, or the token if there is only one. -/
def sideSymbols (chart : CoarseChart) (ex : Example) (first last : Nat) : List String :=
  (chart.cell first last).keys ++ if last - first = 1 then [ex.info.phrase first last] else []

/-- Adds the categories that pairs over the two parts of a span make. -/
def addPairs (chart : CoarseChart) (parser : CoarseParser) (ex : Example) (first mid last : Nat) :
    CoarseChart :=
  let rights := chart.sideSymbols ex mid last
  (chart.sideSymbols ex first mid).foldl
    (fun chart left =>
      match parser.pairs.get? left with
      | none => chart
      | some byRight =>
        rights.foldl
          (fun chart right =>
            ((byRight.get? right).getD []).foldl
              (fun chart cat =>
                chart.add cat first last [⟨left, first, mid⟩, ⟨right, mid, last⟩])
              chart)
          chart)
    chart

/-- Adds the categories that pairs make over a span. -/
def addBinary (chart : CoarseChart) (parser : CoarseParser) (ex : Example) (first last : Nat) :
    CoarseChart :=
  (List.range' (first + 1) (last - first - 1)).foldl
    (fun chart mid => chart.addPairs parser ex first mid last) chart

/-- Adds the categories that the words of a span make, and then those that one category makes. -/
def addUnary (chart : CoarseChart) (parser : CoarseParser) (ex : Example) (first last : Nat) :
    CoarseChart :=
  let phrase := ex.info.phrase first last
  let chart := parser.literals.foldl
    (fun chart rule =>
      if " ".intercalate rule.rhs == phrase then chart.add rule.lhs first last [] else chart)
    chart
  parser.unaries.foldl
    (fun chart rule =>
      let cat := (rule.rhs.head?).getD ""
      if chart.allows cat first last then chart.add rule.lhs first last [⟨cat, first, last⟩] else chart)
    chart

/-- Fills the cells of a chart, those of shorter spans first. -/
def fill (chart : CoarseChart) (parser : CoarseParser) (ex : Example) : CoarseChart :=
  (spansByLength chart.length).foldl
    (fun chart (first, last) => (chart.addBinary parser ex first last).addUnary parser ex first last)
    chart

/-! ## Top down -/

/-- Which categories are reached over each span. -/
abbrev Reached := Grid (List String)

/-- Whether a category over a span is reached. -/
def isReached (reached : Reached) (span : CatSpan) : Bool :=
  ((reached.get? span.first span.last).getD []).contains span.cat

/-- What can be reached from pending categories, besides what is reached already. -/
def reach (chart : CoarseChart) : Nat → List CatSpan → Reached → Reached
  | 0, _, reached => reached
  | _, [], reached => reached
  | fuel + 1, span :: pending, reached =>
    if isReached reached span then reach chart fuel pending reached
    else
      match (chart.cell span.first span.last).get? span.cat with
      | none => reach chart fuel pending reached
      | some children =>
        reach chart fuel (children ++ pending)
          (reached.modify span.first span.last fun cats => span.cat :: cats)

/-- The number of children in all cells. -/
def links (chart : CoarseChart) : Nat :=
  (chart.cells.toList.flatMap fun (_, _, cell) => cell.values.flatten).length

/-- What the root can be made of. Every category over a span is followed once at most, so the search looks at
no more than the root and all children. -/
def reachable (chart : CoarseChart) : Reached :=
  chart.reach (chart.links + 1) [⟨rootCat, 0, chart.length⟩] (.replicate chart.length [])

/-- Keeps the categories that the root can be made of. -/
def keepReachable (chart : CoarseChart) : CoarseChart :=
  let reached := chart.reachable
  { chart with
    cells := chart.cells.mapSpans fun first last cell =>
      cell.filter fun cat _ => isReached reached ⟨cat, first, last⟩ }

end CoarseChart

/-- The categories that can matter for an example. -/
def CoarseParser.parse (parser : CoarseParser) (ex : Example) : CoarseChart :=
  ((CoarseChart.seed ex.length).fill parser ex).keepReachable

end Parlance
