import Parlance.Grammar.Basic
import Parlance.Grammar.Files
import Parlance.Grammar.Statement

/-!
# `Grammar.Compile` — carrying statements out

Statements are carried out one by one. A statement that fails stops the compilation, but what was done before
it stays done.

## Contents
- **The computation.** `Compile`, which keeps the grammar also when it fails.
- **Macros.** `expand`, `withMacro`.
- **Rules.** `readRule`, which reads an expanded rule statement.
- **Statements.** `interpret`, given what an inclusion does.
- **Texts and files.** `addStatements`, `addFile`.
-/

namespace Parlance

/-! ## The computation -/

/-- A computation on a grammar that may fail, and keeps the grammar if it does. -/
abbrev Compile (α : Type) := ExceptT GrammarError (StateM Grammar) α

namespace Grammar

/-- Fails with an error, if there is one. -/
def orFail {α : Type} : Except GrammarError α → Compile α
  | .ok a => pure a
  | .error e => throw e

/-! ## Macros -/

/-- The value of a leaf: that of the macro, if it names one, and else the leaf itself. -/
def expandLeaf (macros : Table Sexp) (statement leaf : String) : Except GrammarError Sexp :=
  match macros.get? leaf with
  | some value => .ok value
  | none =>
    if Statement.isMacroName leaf then .error (.undefinedMacro leaf statement) else .ok (.leaf leaf)

/-- A tree with the macros in it replaced by their values. -/
def expand (macros : Table Sexp) (tree : Sexp) : Except GrammarError Sexp :=
  tree.mapLeaves (expandLeaf macros tree.text)

/-- Gives a macro a value. -/
def bindMacro (grammar : Grammar) (name : String) (value : Sexp) : Grammar :=
  { grammar with macros := grammar.macros.insert name value }

/-- Makes the value of a macro the one given, or none. -/
def restoreMacro (grammar : Grammar) (name : String) (value : Option Sexp) : Grammar :=
  { grammar with
    macros :=
      match value with
      | some value => grammar.macros.insert name value
      | none => grammar.macros.erase name }

/-- Runs a computation for which a macro has no value at first, and gives the macro its old value back
afterwards, whatever the outcome. -/
def withMacro (name : String) (body : Compile Unit) : Compile Unit := fun grammar =>
  let outer := grammar.macros.get? name
  let (result, grammar) := body.run (grammar.restoreMacro name none)
  (result, grammar.restoreMacro name outer)

/-! ## Rules -/

/-- A symbol of a right-hand side, `symbol` or `(symbol optional)`, and whether it may be left out. -/
def readSymbol (tree item : Sexp) : Except GrammarError (String × Bool) :=
  match item with
  | .leaf symbol => .ok (symbol, false)
  | .list (.leaf symbol :: marks) => .ok (symbol, marks.any fun mark => mark.leaf? == some "optional")
  | .list _ => .error (Statement.malformed tree s!"invalid right-hand side symbol {item.text}")

/-- A numeric property `(key value)`. -/
def readProperty (tree item : Sexp) : Except GrammarError (String × Float) :=
  let refused := Statement.malformed tree s!"invalid key-value pair {item.text}"
  match item with
  | .list [.leaf key, .leaf value] =>
    match Decimal.readFloat value with
    | some x => .ok (key, x)
    | none => .error refused
  | _ => .error refused

/-- The tree of a semantic function. A leaf is short for a constant, and a lambda for its application. -/
def functionTree (tree : Sexp) : Sexp :=
  match tree with
  | .leaf _ => .form "ConstantFn" [tree]
  | .list (.leaf "lambda" :: _) =>
    .form "JoinFn" [.leaf "betaReduce", .leaf "forward", .form "arg0" [tree]]
  | .list _ => tree

/-- The rule that an expanded statement gives, with the symbols that may be left out. -/
def readRule (registry : Registry) (source : String) (tree : Sexp) :
    Except GrammarError (Rule × List Bool) :=
  match tree.tail 1 with
  | .leaf lhs :: .list items :: function :: properties => do
    let symbols ← items.mapM (readSymbol tree)
    let sem ← registry.build (functionTree function)
    let info ← properties.mapM (readProperty tree)
    return ({ lhs, rhs := symbols.map (·.1), sem, info, source := some source }, symbols.map (·.2))
  | .leaf _ :: .leaf text :: _ =>
    .error (Statement.malformed tree s!"right-hand side must be a list, got {(Sexp.leaf text).text}")
  | _ => .error (Statement.malformed tree "left-hand side must be a leaf")

/-- Adds the rule that a statement gives. -/
def compileRule (tree : Sexp) : Compile Unit := do
  let grammar ← get
  let expanded ← orFail (expand grammar.macros tree)
  let (rule, optionals) ← orFail (readRule grammar.registry tree.text expanded)
  set (← orFail (grammar.addRule rule optionals))

/-! ## Statements -/

/-- Includes the files that a statement of a file names. -/
def includeAll (addPath : String → Compile Unit) (file : String) (tree : Sexp) :
    List Sexp → Compile Unit
  | [] => pure ()
  | .leaf path :: rest => do
    addPath (Path.sibling file path)
    includeAll addPath file tree rest
  | .list _ :: _ => throw (Statement.malformed tree "include paths must be leaves")

mutual
/-- Carries a statement out, given how a file is included and the file that the statement stands in. -/
def interpret (addPath : String → Compile Unit) (file : Option String) : Statement → Compile Unit
  | .rule tree => compileRule tree
  | .inclusion tree paths =>
    match file with
    | some file => includeAll addPath file tree paths
    | none => throw (.noIncludeContext tree.text)
  | .when condition body => do
    let grammar ← get
    if ← orFail (condition.holds grammar.options.tags) then interpretAll addPath file body
  | .define _ name value => do
    let grammar ← get
    set (grammar.bindMacro name (← orFail (expand grammar.macros value)))
  | .each name values body => do
    let grammar ← get
    let values ← orFail (expand grammar.macros values)
    let body := interpretAll addPath file body
    withMacro name <| values.children.forM fun value => do
      modify fun grammar => grammar.bindMacro name value
      body
  | .invalid cause _ => throw cause
/-- Carries several statements out. -/
def interpretAll (addPath : String → Compile Unit) (file : Option String) :
    List Statement → Compile Unit
  | [] => pure ()
  | s :: rest => do
    interpret addPath file s
    interpretAll addPath file rest
end

/-- Carries the statements of a text out; each of them counts for the tags once it is done. -/
def interpretText (addPath : String → Compile Unit) (file : Option String) (source : String) :
    Compile Unit :=
  match Sexp.readAll source with
  | .error cause => throw (.sexp cause)
  | .ok trees =>
    trees.forM fun tree => do
      let s := Statement.ofSexp tree
      interpret addPath file s
      modify fun grammar => grammar.mention s.tags

/-! ## Texts and files -/

/-- Adds the lines of a file to the statements, under its path. -/
def noteFile (grammar : Grammar) (path source : String) : Grammar :=
  { grammar with
    statements :=
      grammar.statements ++ (if grammar.statements.isEmpty then [] else [""]) ++
        s!"####### {path}" :: Text.lines source }

/-- Reads a file, and the files that it includes, no more than `depth` of them inside each other. -/
def addPath (files : FileSystem) : Nat → String → Compile Unit
  | 0, path => throw (.tooDeep path)
  | depth + 1, path =>
    match files path with
    | .error cause => throw (.unreadable path cause)
    | .ok source => do
      modify fun grammar => grammar.noteFile path source
      interpretText (addPath files depth) (some path) source

/-- How deep a reading goes that no depth is given for. -/
def usualDepth : Nat := 1000

/-- Reads a grammar file, and the files that it includes down to a depth. -/
def addFile (files : FileSystem) (path : String) (depth : Nat := usualDepth) : Compile Unit :=
  addPath files depth path

/-- Carries out the statements of a text, which may stand in a file, and reads the files that it includes down to a
depth. -/
def addStatements (files : FileSystem) (source : String) (file : Option String) (depth : Nat := usualDepth) :
    Compile Unit := do
  modify fun grammar => { grammar with statements := grammar.statements ++ [source] }
  interpretText (addPath files depth) file source

end Grammar

end Parlance
