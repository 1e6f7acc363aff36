import Parlance.Semantics.Basic

/-!
# `Semantics.Number` — numbers read off named entities

A span is a number if it is one named entity with a tag that is asked for and a value that reads as a
number. The tags are tried in a fixed order: numbers, ordinals, percents, money. If the context says so, a
single token that reads as a number will do as well.
-/

namespace Parlance

/-- Reads a number off the span. Without requests every tag is asked for. -/
structure NumberFn where
  requests : Option (List String)

namespace NumberFn

/-- The tags that may be asked for. -/
def knownTags : List String := ["NUMBER", "ORDINAL", "PERCENT", "MONEY"]

/-- Reads `(NumberFn request...)`. -/
def ofSexp (tree : Sexp) : Except GrammarError NumberFn := do
  if tree.head? ≠ some "NumberFn" then invalidFunction tree "expected (NumberFn request...)"
  if tree.length == 1 then return { requests := none }
  let requests ← (tree.tail 1).mapM fun request =>
    match request.leaf? with
    | some tag =>
      if knownTags.contains tag then .ok tag
      else invalidFunction tree s!"unknown request {request.text}"
    | none => invalidFunction tree s!"unknown request {request.text}"
  return { requests := some requests }

/-- Whether a tag is asked for. -/
def asks (fn : NumberFn) (tag : String) : Bool :=
  match fn.requests with
  | some tags => tags.contains tag
  | none => true

/-- Whole numbers have a type of their own. -/
def numberType (x : Float) : SemType := if x == x.floor then .int else .float

/-- The number of a span with a tag. -/
def tagged? (info : LanguageInfo) (tag : String) (first last : Nat) : Option Float :=
  (info.nerSpan? tag first last).bind Decimal.readFloat

/-- A text without its first character, which must be an ASCII sign; there is no rest after another one. -/
def dropSign (text : String) : String :=
  match text.toList with
  | c :: rest => if c.toNat < 0x80 then String.ofList rest else ""
  | [] => ""

/-- The number of a span with a tag whose values have a sign in front, such as `%50` and `$3`. -/
def signed? (info : LanguageInfo) (tag : String) (first last : Nat) : Option Float :=
  (info.nerSpan? tag first last).bind fun value => Decimal.readFloat (dropSign value)

/-- Whether a number lies in the range that is allowed. -/
def inRange (options : NumberOptions) (x : Float) : Bool :=
  match options.range with
  | some (lo, hi) => !(x < lo || hi < x)
  | none => true

/-- The reading of a span as an ordinal, a percentage or an amount of money. -/
def special? (fn : NumberFn) (options : NumberOptions) (info : LanguageInfo) (first last : Nat) :
    Option (Value × SemType) :=
  let ordinal := if fn.asks "ORDINAL" then tagged? info "ORDINAL" first last else none
  let percent := if fn.asks "PERCENT" then signed? info "PERCENT" first last else none
  let money := if fn.asks "MONEY" then signed? info "MONEY" first last else none
  match ordinal, percent, money with
  | some x, _, _ =>
    some (.number x (if options.unitless then none else some "fb:en.ordinal_number"), .int)
  | none, some x, _ => some (.ofFloat (if options.unitless then x else 0.01 * x), .float)
  | none, none, some x =>
    some (.number x (if options.unitless then none else some "fb:en.dollar"), .float)
  | none, none, none => none

/-- The first reading of a span that is asked for. A plain number out of range is none, and keeps the
other tags from being tried. -/
def annotated? (fn : NumberFn) (options : NumberOptions) (info : LanguageInfo) (first last : Nat) :
    Option (Value × SemType) :=
  match if fn.asks "NUMBER" then tagged? info "NUMBER" first last else none with
  | some x => if inRange options x then some (.ofFloat x, numberType x) else none
  | none => fn.special? options info first last

/-- The number that a single token is read as, whatever its tag. -/
def converted? (fn : NumberFn) (options : NumberOptions) (info : LanguageInfo) (first last : Nat) :
    Option (Value × SemType) :=
  if options.byConversion && fn.asks "NUMBER" && last - first == 1 then
    ((info.tokens[first]?).bind Decimal.readFloat).map fun x => (.ofFloat x, numberType x)
  else none

/-- The results of the function. -/
def apply (fn : NumberFn) (ctx : SemContext) (ex : Example) (call : Call) : Stream Candidate :=
  let annotated := fn.annotated? ctx.numbers ex.info call.first call.last
  match annotated <|> fn.converted? ctx.numbers ex.info call.first call.last with
  | some (v, type) => .single { formula := .value v, type }
  | none => .empty

/-- The function as one of a grammar. -/
def toFn (fn : NumberFn) : SemanticFn where
  tree := .form "NumberFn" ((fn.requests.getD []).map .leaf)
  apply := fn.apply

end NumberFn

end Parlance
