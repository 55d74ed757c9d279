import CoverageLedger.CommandLine.Usage
import CoverageLedger.Text.Numeral

/-!
# The command line

`CommandLine.read` turns the arguments of the program into an `Invocation`. They are read from left
to right, and the first that is wrong or asks for help ends the reading.
-/

namespace CoverageLedger

inductive Command where
  | ingest (file report : String) (flags : List String) (name : Option String)
  | summary (report : String) (paths flags : List String)
  | files (report : String)
  | lines (file report : String) (uncovered : Bool)
  | sessions (report : String)
  | deleteSessions (report : String) (ids : List Nat)
  | carryForward (report into : String) (flags paths : List String)
  | diffCoverage (report : String) (gitDiff directory : Option String)
  | repack (report : String)
  deriving DecidableEq, Repr

structure Invocation where
  database : String
  settings : Option String
  command : Command
  deriving DecidableEq, Repr

namespace CommandLine

inductive Stop where
  | misuse
  | help (topic : Topic)
  | version
  deriving DecidableEq, Repr

/-- The options and arguments read so far, in order. -/
structure Given where
  options : List (String × String) := []
  arguments : List String := []

namespace Given

def has (g : Given) (name : String) : Bool := g.options.any (·.1 == name)

def all (g : Given) (name : String) : List String :=
  (g.options.filter (·.1 == name)).map Prod.snd

def get? (g : Given) (name : String) : Option String := (g.all name).head?

/-- Take an option. Its value has to fit, and most options are given at most once. -/
def addOption (g : Given) (o : OptionUsage) (value : String) : Except Stop Given :=
  if (o.isPath && value.isEmpty) || (!o.repeated && g.has o.name) then .error .misuse
  else .ok { g with options := g.options ++ [(o.name, value)] }

def id? (s : String) : Option Nat :=
  ((Text.int64? s.toList).filter fun i => 0 ≤ i && i < (Text.word32 : Int)).map Int.toNat

/-- Whether an argument is of a kind. -/
def fits (kind : ArgumentKind) (s : String) : Bool :=
  match kind with
  | .text => true
  | .path => !s.isEmpty
  | .number => (id? s).isSome

def addArgument (g : Given) (usage : Option ArgumentUsage) (s : String) : Except Stop Given :=
  match usage with
  | some a =>
    if fits a.kind s && (a.repeated || g.arguments.isEmpty) then
      .ok { g with arguments := g.arguments ++ [s] }
    else .error .misuse
  | none => .error .misuse

end Given

inductive Word where
  | plain
  | endOfOptions
  | short (letter : Char)
  | long (name : String) (value : Option String)

/-- What a word of the command line is. A single dash is plain. -/
def Word.of (s : String) : Word :=
  match s.toList with
  | ['-', '-'] => .endOfOptions
  | '-' :: '-' :: rest =>
    match Text.splitOnce '=' rest with
    | some (name, value) => .long (String.ofList name) (some (String.ofList value))
    | none => .long (String.ofList rest) none
  | '-' :: letter :: _ => .short letter
  | _ => .plain

/-- Where in the command line words are read: before a command, or after it. -/
abbrev Place := Option CommandUsage

def optionsIn (place : Place) : List OptionUsage :=
  ((place.map (·.options)).getD []) ++ programOptions

/-- Where reading ends for an option that is always there, if it is one. -/
def builtIn? (place : Place) : Word → Option Stop
  | .short 'h' | .long "help" none => some (.help ((place.map Topic.command).getD .program))
  | .short 'V' | .long "version" none => if place.isNone then some .version else none
  | _ => none

/-- A word that stands for itself, and those after it: an argument of a command, or the name of
one. -/
def plainWord (place : Place) (g : Given) (word : String) (rest : List String)
    (go : Given → Except Stop (Given × List String)) : Except Stop (Given × List String) :=
  match place with
  | some c => g.addArgument c.argument word >>= go
  | none => .ok (g, word :: rest)

/-- Read words up to the end, or up to the name of the command. -/
def readWords (place : Place) (g : Given) : List String → Except Stop (Given × List String)
  | [] => .ok (g, [])
  | word :: rest =>
    let kind := Word.of word
    match builtIn? place kind with
    | some stop => .error stop
    | none =>
      match kind with
      | .plain => plainWord place g word rest fun g => readWords place g rest
      | .endOfOptions =>
        match place with
        | some c => do
          return (← rest.foldlM (fun (g : Given) s => g.addArgument c.argument s) g, [])
        | none => .error .misuse
      | .short _ => .error .misuse
      | .long name attached =>
        match (optionsIn place).find? (·.name == name), attached with
        | none, _ => .error .misuse
        | some o, some value =>
          if o.value.isSome then do
            readWords place (← g.addOption o value) rest
          else .error .misuse
        | some o, none =>
          if o.value.isNone then do
            readWords place (← g.addOption o "") rest
          else
            -- the next word is the value, unless it looks like an option
            match rest with
            | value :: rest =>
              match Word.of value with
              | .plain => do
                readWords place (← g.addOption o value) rest
              | _ => .error .misuse
            | [] => .error .misuse

/-- What the `help` command asks for: the help of the program, or of one command, which may be the
`help` command. -/
def askedHelp : List String → Stop
  | [] => .help .program
  | ["help"] => .help .help
  | [name] =>
    match command? name with
    | some c => .help (.command c)
    | none => .misuse
  | _ => .misuse

def complete (c : CommandUsage) (g : Given) : Bool :=
  (c.argument.isNone || !g.arguments.isEmpty) &&
    (c.options.filter (·.required)).all fun o => g.has o.name

def commandOf? (c : CommandUsage) (g : Given) : Option Command :=
  let report := (g.get? "report").getD "main"
  let argument := g.arguments.headD ""
  match c.name with
  | "ingest" => some (.ingest argument report (g.all "flag") (g.get? "name"))
  | "summary" => some (.summary report (g.all "path") (g.all "flag"))
  | "files" => some (.files report)
  | "lines" => some (.lines argument report (g.has "uncovered"))
  | "sessions" => some (.sessions report)
  | "delete-sessions" => some (.deleteSessions report (g.arguments.filterMap Given.id?))
  | "carryforward" =>
    some (.carryForward report ((g.get? "into").getD "") (g.all "flag") (g.all "path"))
  | "diff-coverage" => some (.diffCoverage report (g.get? "git-diff") (g.get? "path-prefix"))
  | "repack" => some (.repack report)
  | _ => none

def defaultDatabase : String := ".covstore.db"

/-- Read the arguments of the program. An option after the command wins over the same one before
it. -/
def read (words : List String) : Except Stop Invocation := do
  match ← readWords none {} words with
  | (_, []) => throw .misuse
  | (before, name :: rest) =>
    if name = "help" then throw (askedHelp rest)
    let some c := command? name | throw .misuse
    let (after, _) ← readWords (some c) {} rest
    let some command := commandOf? c after | throw .misuse
    if !complete c after then throw .misuse
    return {
      database := ((after.get? "db").or (before.get? "db")).getD defaultDatabase
      settings := (after.get? "config").or (before.get? "config")
      command }

end CommandLine

end CoverageLedger
