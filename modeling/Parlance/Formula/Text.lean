import Parlance.Formula.Basic

/-!
# `Formula.Text` — formulas as S-expressions

## Contents
- **Writing.** `Formula.toSexp` and `Formula.text`.
- **Reading.** `Formula.ofSexp` and `Formula.read`.

A formula is a list with the word of its kind in front. A list of two without such a word is a join,
`(fb:type.object.type fb:people.person)`, and so is one whose word is a sign of arithmetic. A leaf is
a name, except that the rank and the count of a superlative may be whole numbers.
-/

namespace Parlance.Formula

/-! ## Writing -/

mutual
/-- A formula as a tree. -/
def toSexp : Formula → Sexp
  | value v => v.toSexp
  | var x => .form "var" [.leaf x]
  | join r c => .list [toSexp r, toSexp c]
  | merge m a b => .form m.word [toSexp a, toSexp b]
  | not c => .form "not" [toSexp c]
  | lambda x b => .form "lambda" [.leaf x, toSexp b]
  | mark x b => .form "mark" [.leaf x, toSexp b]
  | reverse c => .form "reverse" [toSexp c]
  | aggregate m c => .form m.word [toSexp c]
  | arithmetic m a b => .form m.word [toSexp a, toSexp b]
  | superlative m r k h s => .form m.word [toSexp r, toSexp k, toSexp h, toSexp s]
  | call f as => .form "call" (toSexp f :: toSexps as)
/-- Formulas as trees. -/
def toSexps : List Formula → List Sexp
  | [] => []
  | f :: rest => toSexp f :: toSexps rest
end

/-- The text of a formula. -/
def text (f : Formula) : String := f.toSexp.text

/-! ## Reading -/

/-- A list that is to be a formula: its members, and for each of them what it reads as. -/
structure Form where
  items : List Sexp
  parsed : List (Except ReadError Formula)

namespace Form

/-- Why the list is refused. -/
def refuse {α : Type} (form : Form) (why : String) : Except ReadError α :=
  .error (.formula why (Sexp.list form.items).text)

/-- The formula at a position. -/
def child (form : Form) (i : Nat) : Except ReadError Formula :=
  (form.parsed[i]?).getD (form.refuse "missing argument")

/-- The leaf at a position. -/
def leaf (form : Form) (i : Nat) : Except ReadError String :=
  match (Sexp.list form.items).childLeaf? i with
  | some text => .ok text
  | none => form.refuse "expected a name"

/-- Demands `n` members after the word in front. -/
def arity (form : Form) (n : Nat) : Except ReadError Unit :=
  if form.items.length = n + 1 then .ok () else form.refuse s!"expected {n} argument(s)"

/-- The formula at a position, or the whole number there. -/
def childOrInteger (form : Form) (i : Nat) : Except ReadError Formula :=
  match ((Sexp.list form.items).childLeaf? i).bind (Decimal.readSigned 64) with
  | some n => .ok (value (.ofFloat (Float.ofInt n)))
  | none => form.child i

/-- A join of the two members. -/
def join (form : Form) : Except ReadError Formula := do
  if form.items.length ≠ 2 then form.refuse "invalid number of arguments for join (want 2)"
  let relation ← form.child 0
  let child ← form.child 1
  return .join relation child

/-- The formula whose operator, if it has one, is the given word. -/
def operator (form : Form) (word : String) : Except ReadError Formula := do
  match MergeMode.ofWord word with
  | some mode =>
    form.arity 2
    let left ← form.child 1
    let right ← form.child 2
    return .merge mode left right
  | none =>
  match AggregateMode.ofWord word with
  | some mode =>
    form.arity 1
    let child ← form.child 1
    return .aggregate mode child
  | none =>
  match SuperlativeMode.ofWord word with
  | some mode =>
    form.arity 4
    let rank ← form.childOrInteger 1
    let count ← form.childOrInteger 2
    let head ← form.child 3
    let relation ← form.child 4
    return .superlative mode rank count head relation
  | none =>
  match ArithmeticMode.ofWord word with
  | some mode =>
    if form.items.length = 3 then
      let left ← form.child 1
      let right ← form.child 2
      return .arithmetic mode left right
    else form.join
  | none => form.join

/-- The formula that a list stands for. -/
def formula (form : Form) : Except ReadError Formula := do
  match (Sexp.list form.items).head? with
  | some "boolean" | some "number" | some "string" | some "date" | some "name" =>
    return value (← Value.ofSexp (.list form.items))
  | some "var" =>
    form.arity 1
    return .var (← form.leaf 1)
  | some "lambda" =>
    form.arity 2
    let x ← form.leaf 1
    return .lambda x (← form.child 2)
  | some "mark" =>
    form.arity 2
    let x ← form.leaf 1
    return .mark x (← form.child 2)
  | some "not" =>
    form.arity 1
    return .not (← form.child 1)
  | some "reverse" =>
    form.arity 1
    return .reverse (← form.child 1)
  | some "call" =>
    if form.items.length < 2 then form.refuse "call needs a function"
    let arguments ← (form.parsed.drop 2).mapM id
    let function ← form.child 1
    return .call function arguments
  | some word => form.operator word
  | none => form.join

end Form

mutual
/-- The formula that a tree stands for. -/
def ofSexp : Sexp → Except ReadError Formula
  | .leaf id => .ok (ofName id)
  | .list items => (Form.mk items (ofEach items)).formula
/-- What each of several trees stands for. -/
def ofEach : List Sexp → List (Except ReadError Formula)
  | [] => []
  | tree :: rest => ofSexp tree :: ofEach rest
end

/-- The formula that a text denotes. -/
def read : String → Except ReadError Formula := readWith ofSexp

end Parlance.Formula
