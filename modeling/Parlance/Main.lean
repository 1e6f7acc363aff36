import Parlance.CommandLine.Session

/-!
# `Main` — the command line

Reads the grammars, prompts for utterances, and prints what they mean.

## Contents
- **Loading.** `fileError`, `load`.
- **Talking.** `talk`, `main`.
-/

namespace Parlance.CommandLine

/-! ## Loading -/

/-- Why a file could not be read. -/
def fileError : IO.Error → FileError
  | .inappropriateType .. => .isDirectory
  | _ => .missing

/-- The parser that the arguments ask for, given the files that were read so far. A file that is missing among
them is read, and then the grammar is compiled anew. -/
partial def load (a : Arguments) (known : Table (Except FileError String)) :
    IO (Except GrammarError (Parser Float)) := do
  match prepare (fun path => (known.get? path).getD (.error .missing)) a with
  | .ok parser => return .ok parser
  | .error e =>
    match e with
    | .unreadable path _ =>
      if known.contains path then return .error e
      else
        let content ← (IO.FS.readFile path).toBaseIO
        load a (known.insert path (content.mapError fileError))
    | _ => return .error e

/-! ## Talking -/

/-- Prompts for utterances and prints what they mean, until the input ends. -/
partial def talk (parser : Parser Float) (showChart : Bool) (input output errors : IO.FS.Stream) :
    IO Unit := do
  output.putStr prompt
  output.flush
  let line ← input.getLine
  if line.isEmpty then output.putStrLn ""
  else
    let reply := respond parser showChart line
    output.putStr reply.output
    errors.putStr reply.errors
    talk parser showChart input output errors

end Parlance.CommandLine

open Parlance.CommandLine in
/-- Runs the command line. -/
def main (line : List String) : IO UInt32 := do
  match Arguments.read line with
  | .error .help => IO.print helpText; return 0
  | .error .version => IO.print versionText; return 0
  | .error (.refused cause) => IO.eprintln ("error: " ++ cause.message); return 2
  | .ok a =>
    match ← load a .empty with
    | .error e => IO.eprintln ("error: " ++ e.message); return 1
    | .ok parser => talk parser a.chart (← IO.getStdin) (← IO.getStdout) (← IO.getStderr); return 0
