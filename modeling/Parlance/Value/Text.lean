import Parlance.ReadError
import Parlance.Sexp.Printer
import Parlance.Value.Basic

/-!
# `Value.Text` — values as S-expressions

## Contents
- **Writing.** `Value.toSexp`, `Value.text`, and `Value.plain`, the bare text of a primitive value.
- **Reading.** `Value.ofSexp` and `Value.read`.

A name without a description is a bare leaf; every other value is a list with its kind in front, such as
`(number 3 fb:en.dollar)` or `(date 2012 3 28)`.
-/

namespace Parlance.Value

/-! ## Writing -/

/-- A truth value as a word. -/
def boolText (b : Bool) : String := if b then "true" else "false"

mutual
/-- A value as a tree. -/
def toSexp : Value → Sexp
  | boolean b => .form "boolean" [.leaf (boolText b)]
  | number x none => .form "number" [.leaf (Decimal.showFloat x)]
  | number x (some unit) => .form "number" [.leaf (Decimal.showFloat x), .leaf unit]
  | string text => .form "string" [.leaf text]
  | name id none => .leaf id
  | name id (some description) => .form "name" [.leaf id, .leaf description]
  | date d => .form "date" [.leaf (toString d.year), .leaf (toString d.month), .leaf (toString d.day)]
  | list items => .form "list" (toSexps items)
  | error text => .form "error" [.leaf text]
/-- Values as trees. -/
def toSexps : List Value → List Sexp
  | [] => []
  | item :: rest => toSexp item :: toSexps rest
end

/-- The text of a value. -/
def text (v : Value) : String := v.toSexp.text

/-- The bare text of a primitive value, as it is glued into strings. -/
def plain : Value → String
  | string text => text
  | number x _ => Decimal.showFloat x
  | name id _ => id
  | boolean b => boolText b
  | v => v.text

/-! ## Reading -/

/-- The leaf at a position of a tree that is to be a value. -/
def leafAt (tree : Sexp) (i : Nat) : Except ReadError String :=
  match tree.childLeaf? i with
  | some text => .ok text
  | none => .error (.value tree.text)

/-- The part of a date at a position of a tree. -/
def datePart (tree : Sexp) (i : Nat) : Except ReadError Int := do
  match Decimal.readSigned Date.bits (← leafAt tree i) with
  | some n => return n
  | none => throw (.value tree.text)

mutual
/-- The value that a tree stands for. -/
def ofSexp (tree : Sexp) : Except ReadError Value :=
  match tree with
  | .leaf id => .ok (ofName id)
  | .list [] => .error (.value tree.text)
  | .list (head :: rest) =>
    match head.leaf? with
    | some "boolean" => do
      match ← leafAt tree 1 with
      | "true" => return boolean true
      | "false" => return boolean false
      | _ => throw (.value tree.text)
    | some "number" => do
      match Decimal.readFloat (← leafAt tree 1) with
      | some x => return number x (tree.childLeaf? 2)
      | none => throw (.value tree.text)
    | some "string" => do return string (← leafAt tree 1)
    | some "name" => do return name (← leafAt tree 1) (tree.childLeaf? 2)
    | some "date" => do
      if tree.length = 2 then
        match Date.readIso (← leafAt tree 1) with
        | some d => return date d
        | none => throw (.value tree.text)
      else
        let year ← datePart tree 1
        let month ← datePart tree 2
        let day ← datePart tree 3
        return date { year, month, day }
    | some "list" => do return list (← ofSexps rest)
    | some "error" => .ok (error ((tree.child? 1).elim "" Sexp.text))
    | _ => .error (.value tree.text)
/-- The values that trees stand for, up to the first that stands for none. -/
def ofSexps : List Sexp → Except ReadError (List Value)
  | [] => .ok []
  | tree :: rest => do
    let v ← ofSexp tree
    return v :: (← ofSexps rest)
end

/-- The value that a text denotes. -/
def read : String → Except ReadError Value := readWith ofSexp

end Parlance.Value
