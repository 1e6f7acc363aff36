import Parlance.Grammar.Error
import Parlance.Sexp.Printer

/-!
# `Grammar.Statement` — the statements that grammars are written in

```text
(rule category (symbol ...) function (key value) ...)
(include path ...)
(when condition statement ...)
(def @name value)
(for @name (value ...) statement ...)
```

A condition is a tag or `and`, `or` and `not` over conditions. Statements and conditions that are not of this
form are kept as what they are, because a fault matters only if the statement is carried out.

## Contents
- **Conditions.** `Condition`, `holds`, `tags`.
- **Statements.** `Statement`, `ofSexp`, `tags`.
-/

namespace Parlance

/-! ## Conditions -/

/-- What a statement depends on. -/
inductive Condition where
  | tag (name : String)
  /-- The negation of its only argument; with more or fewer arguments it has no truth value. -/
  | not (tree : Sexp) (arguments : List Condition)
  | and (arguments : List Condition)
  | or (arguments : List Condition)
  | invalid (tree : Sexp)

namespace Condition

mutual
/-- The condition that a tree stands for. -/
def ofSexp : Sexp → Condition
  | .leaf name => tag name
  | .list (.leaf "not" :: arguments) => not (.list (.leaf "not" :: arguments)) (ofSexps arguments)
  | .list (.leaf "and" :: arguments) => and (ofSexps arguments)
  | .list (.leaf "or" :: arguments) => or (ofSexps arguments)
  | .list items => invalid (.list items)
/-- The conditions that several trees stand for. -/
def ofSexps : List Sexp → List Condition
  | [] => []
  | tree :: rest => ofSexp tree :: ofSexps rest
end

mutual
/-- Whether a condition holds under the given tags. Conditions that do not matter are not looked at. -/
def holds (given : List String) : Condition → Except GrammarError Bool
  | tag name => .ok (given.contains name)
  | not _ [c] => do return !(← holds given c)
  | not tree _ => .error (.malformed tree.text "`not` takes exactly one argument")
  | and arguments => allHold given arguments
  | or arguments => anyHolds given arguments
  | invalid tree => .error (.malformed tree.text "expected a tag or (and|or|not ...)")
/-- Whether all of several conditions hold. -/
def allHold (given : List String) : List Condition → Except GrammarError Bool
  | [] => .ok true
  | c :: rest => do if ← holds given c then allHold given rest else return false
/-- Whether one of several conditions holds. -/
def anyHolds (given : List String) : List Condition → Except GrammarError Bool
  | [] => .ok false
  | c :: rest => do if ← holds given c then return true else anyHolds given rest
end

mutual
/-- The tags that a condition mentions. -/
def tags : Condition → List String
  | tag name => [name]
  | not _ arguments => tagsOfAll arguments
  | and arguments => tagsOfAll arguments
  | or arguments => tagsOfAll arguments
  | invalid _ => []
/-- The tags that several conditions mention. -/
def tagsOfAll : List Condition → List String
  | [] => []
  | c :: rest => tags c ++ tagsOfAll rest
end

end Condition

/-! ## Statements -/

/-- A statement of a grammar. -/
inductive Statement where
  /-- A production. -/
  | rule (tree : Sexp)
  /-- Other files, in order. -/
  | inclusion (tree : Sexp) (paths : List Sexp)
  /-- Statements that depend on a condition. -/
  | when (condition : Condition) (body : List Statement)
  /-- A value for a macro, which stays. -/
  | define (tree : Sexp) (name : String) (value : Sexp)
  /-- Statements for each value of a macro. -/
  | each (name : String) (values : Sexp) (body : List Statement)
  /-- A statement that is refused when it is reached. The conditions in its body still count as mentioned. -/
  | invalid (cause : GrammarError) (body : List Statement)

namespace Statement

/-- Refuses a statement. -/
def malformed (tree : Sexp) (reason : String) : GrammarError := .malformed tree.text reason

/-- Whether a leaf can name a macro. -/
def isMacroName (leaf : String) : Bool := leaf.toList.head? == some '@'

/-- Why a leaf that does not name a macro is refused. -/
def notMacroName (tree : Sexp) (leaf : String) : GrammarError :=
  malformed tree s!"variable {leaf} doesn't start with '@'"

mutual
/-- The statement that a tree stands for. -/
def ofSexp : Sexp → Statement
  | .leaf text => invalid (malformed (.leaf text) "expected a list") []
  | .list (.leaf "rule" :: rest) =>
    let tree := Sexp.list (.leaf "rule" :: rest)
    if rest.length < 3 then
      invalid (malformed tree "expected (rule lhs (rhs...) semanticFn (key value)...)") []
    else rule tree
  | .list (.leaf "include" :: paths) =>
    inclusion (.list (.leaf "include" :: paths)) paths
  | .list [.leaf "when"] =>
    invalid (malformed (.list [.leaf "when"]) "(when condition statement...)") []
  | .list (.leaf "when" :: condition :: body) => when (.ofSexp condition) (ofSexps body)
  | .list (.leaf "def" :: rest) =>
    let tree := Sexp.list (.leaf "def" :: rest)
    match rest with
    | [.leaf name, value] =>
      if isMacroName name then define tree name value else invalid (notMacroName tree name) []
    | _ => invalid (malformed tree "expected (def @name value)") []
  | .list (.leaf "for" :: name :: values :: body) =>
    let tree := Sexp.list (.leaf "for" :: name :: values :: body)
    let body := ofSexps body
    match name, body with
    | .leaf name, _ :: _ =>
      if isMacroName name then each name values body else invalid (notMacroName tree name) body
    | _, _ => invalid (malformed tree "expected (for @var (value...) statement...)") body
  | .list (.leaf "for" :: rest) =>
    invalid (malformed (.list (.leaf "for" :: rest)) "expected (for @var (value...) statement...)") []
  | .list items => invalid (.invalidCommand (Sexp.list items).text) []
/-- The statements that several trees stand for. -/
def ofSexps : List Sexp → List Statement
  | [] => []
  | tree :: rest => ofSexp tree :: ofSexps rest
end

mutual
/-- The tags that the conditions in a statement mention. -/
def tags : Statement → List String
  | rule _ => []
  | inclusion _ _ => []
  | when condition body => condition.tags ++ tagsOfAll body
  | define _ _ _ => []
  | each _ _ body => tagsOfAll body
  | invalid _ body => tagsOfAll body
/-- The tags that the conditions in several statements mention. -/
def tagsOfAll : List Statement → List String
  | [] => []
  | s :: rest => tags s ++ tagsOfAll rest
end

end Statement

end Parlance
