import Parlance.Grammar.Basic
import Parlance.Parse.BestFirst
import Parlance.Parse.BottomUp
import Parlance.Parse.Result

/-!
# `Parse.Parser` — parsing utterances by a grammar

A parser is a grammar prepared for one of two kinds of search, with options, the context of its semantic
functions, and what finds features, executes formulas and compares values. It parses an example by given
weights; the result says what the example means.

The figures of a parse have entries for the time that it took. These count the parse as taking none.

## Contents
- **Options.** `SearchKind`, `ParserOptions`.
- **Parsers.** `Parser`, `Parser.ofGrammar`.
- **Parsing.** `Parser.task`, `Parser.infer`, `Parser.parse`.
-/

namespace Parlance

/-! ## Options -/

/-- How derivations are searched for. -/
inductive SearchKind (α : Type) where
  /-- Span by span, the shorter ones first. -/
  | bottomUp
  /-- The best ones first, for grammars with at most two symbols in a rule. -/
  | bestFirst (options : BestFirst.Options α)

/-- How a parser works. -/
structure ParserOptions (α : Type) where
  kind : SearchKind α
  /-- How many derivations of a category over a span are kept. -/
  beamSize : Nat
  policy : PrunePolicy α
  /-- How much scores are disturbed before they are compared, and the random numbers for it. -/
  noise : α
  draws : Nat → α
  /-- No more derivations are made once there are this many. -/
  limit : Option Nat
  /-- Only categories that can matter are built. -/
  coarse : Bool
  /-- Unless it learns, the parser executes the best prediction only. -/
  topOnly : Bool
  /-- Derivations whose value is an error are kept out. -/
  pruneErrors : Bool
  /-- How learning compares predictions, and by which margin. -/
  countMode : CountMode
  margin : α
  /-- How many steps a search that takes the best derivations first may take. -/
  steps : Nat
  /-- The numbers that derivations are sorted by, in the order in which they are made. -/
  supply : Nat → Nat

variable {α : Type} [Score α]

/-- The usual options: a beam of 500 without noise or limits. -/
def ParserOptions.standard : ParserOptions α where
  kind := .bottomUp
  beamSize := 500
  policy := .topK
  noise := Score.zero
  draws _ := Score.zero
  limit := none
  coarse := false
  topOnly := false
  pruneErrors := false
  countMode := .standard
  margin := Score.ofNat 1000000
  steps := 1000000000000000
  supply i := i

/-! ## Parsers -/

/-- A grammar prepared for parsing. -/
structure Parser (α : Type) where
  options : ParserOptions α
  ctx : SemContext
  /-- What finds the features of derivations. -/
  extractor : FeatureExtractor α
  /-- What executes predictions, and what compares their values with the target. -/
  executor : Executor
  evaluator : ValueEvaluator α
  trie : Trie
  /-- The rules from one category to one category, in order. -/
  unaries : List Rule
  coarse : Option CoarseParser
  siblings : SiblingIndex

namespace Parser

/-- Prepares what is wanted only. -/
def prepare {β : Type} (wanted : Bool) (p : Except GrammarError β) :
    Except GrammarError (Option β) :=
  if wanted then p.map some else .ok none

/-- Whether the search needs an index of siblings. -/
def needsSiblings (kind : SearchKind α) : Bool :=
  match kind with
  | .bottomUp => false
  | .bestFirst _ => true

/-- The parser for rules. -/
def ofRules (rules : List Rule) (options : ParserOptions α) (ctx : SemContext)
    (executor : Executor) (extractor : FeatureExtractor α := .rules)
    (evaluator : ValueEvaluator α := .exact) : Except GrammarError (Parser α) := do
  let unaries ← UnaryOrder.sort rules
  let coarse ← prepare options.coarse (CoarseParser.ofRules rules)
  let siblings ← prepare (needsSiblings options.kind) (SiblingIndex.ofRules rules)
  return {
    options, ctx, extractor, executor, evaluator, unaries, coarse
    trie := trieOf rules
    siblings := siblings.getD .empty }

/-- The parser for a grammar. -/
def ofGrammar (grammar : Grammar) (options : ParserOptions α) (ctx : SemContext := {})
    (executor : Executor := .matching) (extractor : FeatureExtractor α := .rules)
    (evaluator : ValueEvaluator α := .exact) : Except GrammarError (Parser α) :=
  ofRules grammar.rules options ctx executor extractor evaluator

/-! ## Parsing -/

/-- The task of parsing an example. -/
def task (parser : Parser α) (weights : Weights α) (ex : Example) : Task α where
  ctx := parser.ctx
  ex
  extractor := parser.extractor
  weights
  coarse := parser.coarse.map fun coarse => coarse.parse ex
  beam := {
    size := ex.beamSize.getD parser.options.beamSize
    policy := parser.options.policy
    noise := parser.options.noise
    draws := parser.options.draws }
  limit := parser.options.limit
  pruneErrors := parser.options.pruneErrors
  supply := parser.options.supply

/-- Finds the derivations of an example. -/
def infer (parser : Parser α) (weights : Weights α) (ex : Example) :
    Except ParseError (Progress α) :=
  let task := parser.task weights ex
  match parser.options.kind with
  | .bottomUp => BottomUp.run task parser.trie parser.unaries
  | .bestFirst options => BestFirst.run options parser.siblings task parser.options.steps

/-- What the predictions for an example are compared with. -/
def target (parser : Parser α) (ex : Example) : Option Value :=
  match ex.targetFormula with
  | some f => some (parser.executor.execute f)
  | none => ex.targetValue

/-- The result of a search: the predictions, executed and compared with the target. -/
def conclude (parser : Parser α) (ex : Example) (learning : Bool) (p : Progress α) :
    ParseResult α :=
  let target := parser.target ex
  let executed := if parser.options.topOnly && !learning then p.roots.take 1 else p.roots
  let arena := executePredictions parser.executor parser.evaluator target p.arena executed
  let expectedCounts :=
    if learning then
      arena.expectedCounts? p.roots parser.options.countMode parser.options.margin
    else none
  let arena := setProbabilities arena p.roots
  let e := recordPredictions arena p.roots target.isSome
  let e := if parser.coarse.isSome then e.record "coarseParseTime" Score.zero else e
  { arena
    chart := p.chart
    predictions := p.roots
    target
    evaluation := p.chart.stats.record ex.length Score.zero e
    expectedCounts }

/-- Parses an example, executes the predictions, compares them with the target and, if the parser is
learning, computes what to learn from them. -/
def parse (parser : Parser α) (weights : Weights α) (ex : Example) (learning : Bool) :
    Except ParseError (ParseResult α) := do
  return parser.conclude ex learning (← parser.infer weights ex)

end Parser

end Parlance
