import Parlance.Decimal.Reading

/-!
# `CommandLine.Arguments` — what a command line asks for

Grammar files stand anywhere on the line. Switches are written long, `--tag X` or `--tag=X`, or short, `-t X`,
`-t=X` or `-tX`; short ones may share a dash. A value that stands by itself may not look like a switch. After
`--`, everything is a file. Only `--tag` may be given more than once.

## Contents
- **Arguments.** `Arguments`, `Stop`, which says why there are none.
- **Switches.** `Switch`, `apply`, `applyValue`.
- **Reading.** `readLong`, `readShort`, `Arguments.read`.
-/

namespace Parlance.CommandLine

/-! ## Arguments -/

/-- What a command line asks for. -/
structure Arguments where
  /-- The grammar files, in order. -/
  grammars : List String := []
  /-- The tags under which conditions in the grammar hold. -/
  tags : List String := []
  /-- How many derivations of a cell are kept, if that is given. -/
  beam : Option Nat := none
  /-- Whether the best derivations are built first. -/
  agenda : Bool := false
  /-- Whether only categories that can matter are built. -/
  coarse : Bool := false
  /-- Whether the chart is printed. -/
  chart : Bool := false
  deriving DecidableEq, Repr, Inhabited

/-- What a command line is refused for. -/
inductive UsageError where
  | unexpected (argument : String)
  | missingValue (switch : String)
  | repeated (switch : String)
  | invalidValue (switch value : String)
  | noGrammar
  deriving DecidableEq, Repr

/-- The message of an error. -/
def UsageError.message : UsageError → String
  | unexpected argument => s!"unexpected argument '{argument}' found"
  | missingValue switch => s!"a value is required for '{switch}' but none was supplied"
  | repeated switch => s!"the argument '{switch}' cannot be used multiple times"
  | invalidValue switch value => s!"invalid value '{value}' for '{switch}'"
  | noGrammar => "the following required arguments were not provided: <GRAMMARS>..."

/-- Why a command line gives no arguments. -/
inductive Stop where
  /-- It asks for an explanation. -/
  | help
  /-- It asks for the version. -/
  | version
  | refused (cause : UsageError)
  deriving DecidableEq, Repr

/-! ## Switches -/

/-- What a command line can switch. -/
inductive Switch where
  | tag | beam | agenda | coarse | chart | help | version
  deriving DecidableEq, Repr

namespace Switch

/-- The long name of a switch. -/
def name : Switch → String
  | tag => "tag"
  | beam => "beam"
  | agenda => "agenda"
  | coarse => "coarse"
  | chart => "chart"
  | help => "help"
  | version => "version"

/-- The short name of a switch, if it has one. -/
def letter? : Switch → Option Char
  | tag => some 't'
  | beam => some 'b'
  | agenda => some 'a'
  | coarse => none
  | chart => some 'c'
  | help => some 'h'
  | version => some 'V'

/-- All switches. -/
def all : List Switch := [tag, beam, agenda, coarse, chart, help, version]

/-- The switch with a long name. -/
def ofName (name : String) : Option Switch := all.find? fun s => s.name == name

/-- The switch with a short name. -/
def ofLetter (c : Char) : Option Switch := all.find? fun s => s.letter? == some c

/-- The switch as it is written. -/
def text (s : Switch) : String := "--" ++ s.name

/-- Whether a switch has a value. -/
def hasValue : Switch → Bool
  | tag | beam => true
  | _ => false

end Switch

namespace Arguments

/-- Turns a switch without a value on. -/
def apply (a : Arguments) (s : Switch) : Except Stop Arguments :=
  let once (given : Bool) (a : Arguments) : Except Stop Arguments :=
    if given then .error (.refused (.repeated s.text)) else .ok a
  match s with
  | .agenda => once a.agenda { a with agenda := true }
  | .coarse => once a.coarse { a with coarse := true }
  | .chart => once a.chart { a with chart := true }
  | .help => .error .help
  | .version => .error .version
  | .tag | .beam => .error (.refused (.missingValue s.text))

/-- Gives a switch its value. -/
def applyValue (a : Arguments) (s : Switch) (value : String) : Except Stop Arguments :=
  match s with
  | .tag => .ok { a with tags := a.tags ++ [value] }
  | .beam =>
    if a.beam.isSome then .error (.refused (.repeated s.text))
    else
      match Decimal.readUnsigned 64 value with
      | some n => .ok { a with beam := some n }
      | none => .error (.refused (.invalidValue s.text value))
  | _ => .error (.refused (.unexpected value))

/-! ## Reading -/

/-- Reads a switch by its long name, with a value after the first `=` if there is one. The answer tells whether
the switch still waits for its value. -/
def readLong (a : Arguments) (body : String) : Except Stop (Arguments × Option Switch) :=
  let name := String.ofList (body.toList.takeWhile (· != '='))
  match Switch.ofName name, body.toList.dropWhile (· != '=') with
  | none, _ => .error (.refused (.unexpected ("--" ++ name)))
  | some s, '=' :: value => do
    return (← a.applyValue s (String.ofList value), none)
  | some s, _ => if s.hasValue then .ok (a, some s) else do return (← a.apply s, none)

/-- Reads switches by their short names. All that follows a switch with a value is the value. -/
def readShort (a : Arguments) : List Char → Except Stop (Arguments × Option Switch)
  | [] => .ok (a, none)
  | c :: rest =>
    match Switch.ofLetter c with
    | none => .error (.refused (.unexpected (String.ofList ['-', c])))
    | some s =>
      if s.hasValue then
        match rest with
        | [] => .ok (a, some s)
        | '=' :: value => do return (← a.applyValue s (String.ofList value), none)
        | value => do return (← a.applyValue s (String.ofList value), none)
      else do readShort (← a.apply s) rest

/-- Whether an argument looks like a switch. -/
def isSwitch (argument : String) : Bool := argument.startsWith "-" && argument != "-"

/-- Reads one argument. The answer tells which switch waits for its value. -/
def readOne (a : Arguments) (argument : String) : Except Stop (Arguments × Option Switch) :=
  match argument.toList with
  | '-' :: '-' :: body => a.readLong (String.ofList body)
  | '-' :: c :: body => a.readShort (c :: body)
  | _ => .ok ({ a with grammars := a.grammars ++ [argument] }, none)

/-- Reads arguments after those that were read. -/
def readAll (a : Arguments) : List String → Except Stop Arguments
  | [] => .ok a
  | "--" :: rest => .ok { a with grammars := a.grammars ++ rest }
  | argument :: rest => do
    match ← a.readOne argument, rest with
    | (a, none), rest => readAll a rest
    | (_, some s), [] => throw (.refused (.missingValue s.text))
    | (a, some s), value :: rest =>
      if isSwitch value then throw (.refused (.missingValue s.text))
      else readAll (← a.applyValue s value) rest

/-- The arguments of a command line, which must name a grammar. -/
def read (line : List String) : Except Stop Arguments := do
  let a ← readAll {} line
  if a.grammars.isEmpty then throw (.refused .noGrammar) else return a

end Arguments

/-- What is printed for a command line that asks for an explanation. -/
def helpText : String :=
  "Reads utterances from stdin and prints their derivations\n" ++
  "\n" ++
  "Usage: cli [OPTIONS] <GRAMMARS>...\n" ++
  "\n" ++
  "Arguments:\n" ++
  "  <GRAMMARS>...  Grammar files, read in order\n" ++
  "\n" ++
  "Options:\n" ++
  "  -t, --tag <TAGS>   Tags for `when` statements in the grammar\n" ++
  "  -b, --beam <BEAM>  Derivations kept per chart cell [default: 500]\n" ++
  "  -a, --agenda       Use the agenda parser instead of the bottom-up beam parser\n" ++
  "      --coarse       Run a coarse recognition pass first and only build what it allows\n" ++
  "  -c, --chart        Print the parse chart\n" ++
  "  -h, --help         Print help\n" ++
  "  -V, --version      Print version\n"

/-- What is printed for a command line that asks for the version. -/
def versionText : String := "semparse 0.2.0\n"

end Parlance.CommandLine
