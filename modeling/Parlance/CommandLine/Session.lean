import Parlance.CommandLine.Arguments
import Parlance.Grammar.Compile
import Parlance.Parse.Parser

/-!
# `CommandLine.Session` — utterances in, derivations out

A session reads the grammars that the arguments name, and then parses utterances line by line. Lines are
brought to lowercase, as far as their letters are those of the English alphabet, and lose the blanks at their
ends. An utterance that fails to parse is reported, and the session goes on.

## Contents
- **Preparing.** `compile`, `prepare`.
- **Answering.** `Reply`, `respond`.
- **Sessions.** `Outcome`, `converse`, `run`.
-/

namespace Parlance.CommandLine

/-! ## Preparing -/

/-- The grammar in the files that the arguments name. -/
def compile (files : FileSystem) (a : Arguments) : Except GrammarError Grammar :=
  let (result, grammar) := (a.grammars.forM fun path => Grammar.addFile files path).run (.new { tags := a.tags })
  result.map fun _ => grammar

/-- The options of the parser that the arguments ask for. -/
def parserOptions (a : Arguments) : ParserOptions Float :=
  let standard : ParserOptions Float := .standard
  { standard with
    kind := if a.agenda then .bestFirst {} else .bottomUp
    beamSize := a.beam.getD standard.beamSize
    coarse := a.coarse }

/-- The parser that the arguments ask for. -/
def prepare (files : FileSystem) (a : Arguments) : Except GrammarError (Parser Float) := do
  Parser.ofGrammar (← compile files a) (parserOptions a)

/-! ## Answering -/

/-- What is printed for an utterance, as output and as errors. -/
structure Reply where
  output : String := ""
  errors : String := ""
  deriving Inhabited, DecidableEq, Repr

/-- The utterance on a line. -/
def utterance (line : String) : String := Text.trim (line.map Char.toLower)

/-- The line of a prediction: its score, its formula and its value. -/
def predictionLine (d : Derivation Float) : String :=
  let value := (d.value.map Value.text).getD ""
  Score.fixed 3 d.score ++ "\t" ++ d.formula.text ++ "\t" ++ value ++ "\n"

/-- The text of a result. -/
def resultText (showChart : Bool) (r : ParseResult Float) : String :=
  let n := r.predictions.length
  let plural := if n == 1 then "" else "s"
  (if showChart then "chart:\n" ++ r.chart.text r.arena ++ "\n\n" else "") ++
    s!"Parsed {n} derivation{plural}\n" ++
    String.join (r.predictions.map fun i => predictionLine (r.arena.get i)) ++ "\n"

/-- Parses the utterance on a line. -/
def respond (parser : Parser Float) (showChart : Bool) (line : String) : Reply :=
  match parser.parse (.new) (.ofUtterance (utterance line)) false with
  | .ok r => { output := resultText showChart r }
  | .error e => { errors := "error: " ++ e.message ++ "\n" }

/-! ## Sessions -/

/-- What a whole run prints, and whether it succeeds. -/
structure Outcome extends Reply where
  ok : Bool
  deriving Inhabited, DecidableEq, Repr

/-- What is printed before a line is read. -/
def prompt : String := "> "

/-- What is printed for the lines of an input and for its end. -/
def converse (parser : Parser Float) (showChart : Bool) (lines : List String) : Reply :=
  let replies := lines.map (respond parser showChart)
  { output := String.join (replies.map fun r => prompt ++ r.output) ++ prompt ++ "\n"
    errors := String.join (replies.map Reply.errors) }

/-- The outcome of a run on given files and a given input. -/
def run (files : FileSystem) (line : List String) (input : String) : Outcome :=
  match Arguments.read line with
  | .error .help => { ok := true, output := helpText }
  | .error .version => { ok := true, output := versionText }
  | .error (.refused cause) => { ok := false, errors := "error: " ++ cause.message ++ "\n" }
  | .ok a =>
    match prepare files a with
    | .error e => { ok := false, errors := "error: " ++ e.message ++ "\n" }
    | .ok parser => { converse parser a.chart (Text.lines input) with ok := true }

end Parlance.CommandLine
