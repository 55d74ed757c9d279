import CoverageLedger.Text.Rows

/-!
# The shape of the command line

Which commands there are and what they take, and the help texts that follow from that. The options
of the program itself may also stand among those of a command.
-/

namespace CoverageLedger.CommandLine

def programName : String := "covstore"

def programVersion : String := "0.1.0"

def programAbout : String := "Session-aware coverage report storage, merging, filtering and diffing"

/-- An option, given by its name after two dashes. -/
structure OptionUsage where
  name : String
  /-- What its value is called; a switch has none. -/
  value : Option String
  about : String := ""
  /-- The value when the option is not given. -/
  missing : Option String := none
  required : Bool := false
  repeated : Bool := false
  /-- Whether its value is a path, which is not empty. -/
  isPath : Bool := false
  deriving DecidableEq, Repr

inductive ArgumentKind where
  | text
  | path
  | number
  deriving DecidableEq, Repr

structure ArgumentUsage where
  name : String
  about : String
  kind : ArgumentKind
  repeated : Bool := false
  deriving DecidableEq, Repr

structure CommandUsage where
  name : String
  about : String
  argument : Option ArgumentUsage := none
  options : List OptionUsage
  deriving DecidableEq, Repr

def reportOption (about : String) : OptionUsage :=
  { name := "report", value := some "REPORT", about, missing := some "main" }

def flagOption (about : String) (required : Bool) : OptionUsage :=
  { name := "flag", value := some "FLAGS", about, required, repeated := true }

def pathOption (about : String) : OptionUsage :=
  { name := "path", value := some "PATHS", about, repeated := true }

def programOptions : List OptionUsage := [
  { name := "db", value := some "DB",
    about := "Path to the SQLite database (default: ./.covstore.db)",
    missing := some ".covstore.db", isPath := true },
  { name := "config", value := some "CONFIG",
    about := "Configuration file (default: ./covstore.toml if present)", isPath := true }]

def commands : List CommandUsage := [
  { name := "ingest", about := "Append an LCOV file to a report as a new session",
    argument := some { name := "FILE", about := "Path to the LCOV file", kind := .path },
    options := [
      reportOption "Report to append to (created if missing)",
      flagOption "Flag for the new session. Repeatable" false,
      { name := "name", value := some "NAME", about := "Display name for the new session" }] },
  { name := "summary", about := "Show totals for a report, optionally filtered",
    options := [
      reportOption "",
      pathOption "Only count files matching these patterns. Prefix with `!` to exclude",
      flagOption "Only count sessions carrying one of these flags" false] },
  { name := "files", about := "List per-file coverage for a report", options := [reportOption ""] },
  { name := "lines", about := "Show line-level coverage for a source file",
    argument := some {
      name := "FILE", about := "The source file path (as stored in the report)", kind := .text },
    options := [
      reportOption "",
      { name := "uncovered", value := none,
        about := "Only list missed lines, grouped into ranges" }] },
  { name := "sessions", about := "List the sessions of a report", options := [reportOption ""] },
  { name := "delete-sessions", about := "Remove sessions and their readings from a report",
    argument := some {
      name := "IDS", about := "Session ids to delete", kind := .number, repeated := true },
    options := [reportOption ""] },
  { name := "carryforward",
    about := "Copy the flagged sessions of a report into a new carried-forward report",
    options := [
      reportOption "",
      { name := "into", value := some "INTO", about := "Name of the report to write",
        required := true },
      flagOption "Sessions to carry forward. Repeatable" true,
      pathOption "Only carry forward files matching these patterns"] },
  { name := "diff-coverage", about := "Compute coverage for lines in a git diff (patch coverage)",
    options := [
      reportOption "",
      { name := "git-diff", value := some "GIT_DIFF",
        about := "Git diff arguments, e.g. \"HEAD~1\" or \"main..HEAD\". If omitted, reads a " ++
          "unified diff from stdin" },
      { name := "path-prefix", value := some "PATH_PREFIX",
        about :=
          "Optional path prefix to prepend to diff paths for matching against report paths" }] },
  { name := "repack", about := "Compact a report's chunk arena after deletions",
    options := [reportOption ""] }]

def command? (name : String) : Option CommandUsage := commands.find? (·.name == name)

/-! ## Help -/

def OptionUsage.mark (o : OptionUsage) : String :=
  "--" ++ o.name ++
    match o.value with
    | some value => " <" ++ value ++ ">"
    | none => ""

def ArgumentUsage.mark (a : ArgumentUsage) : String :=
  "<" ++ a.name ++ ">" ++ if a.repeated then "..." else ""

/-- What is said about an option, and its value when it is not given. -/
def OptionUsage.note (o : OptionUsage) : String :=
  Text.joinWith " " <| [o.about, (o.missing.map fun m => "[default: " ++ m ++ "]").getD ""].filter
    (!·.isEmpty)

def columns (rows : List (String × String)) : List String :=
  let width := (rows.map (·.1.length)).foldl max 0
  rows.map fun (left, right) => "  " ++ Text.padEnd width left ++ "  " ++ right

/-- Options in the order of help texts: by their places, and by name in the same place. -/
def inHelpOrder (options : List (Nat × OptionUsage)) : List OptionUsage :=
  let before (a b : Nat × OptionUsage) : Bool :=
    a.1 < b.1 || (a.1 == b.1 && compare a.2.name b.2.name != .gt)
  (options.mergeSort before).map Prod.snd

def placed (options : List OptionUsage) : List (Nat × OptionUsage) :=
  (List.range options.length).zip options

def optionRows (options : List OptionUsage) (builtIn : List (String × String)) : List String :=
  columns (options.map (fun o => ("    " ++ o.mark, o.note)) ++ builtIn)

def helpRow : String × String := ("-h, --help", "Print help")

def helpAbout : String := "Print this message or the help of the given subcommand(s)"

def programHelp : String :=
  let names := commands.map fun c => (c.name, c.about)
  Text.joinWith "\n" <|
    [programAbout, "", "Usage: " ++ programName ++ " [OPTIONS] <COMMAND>", "", "Commands:"] ++
    columns (names ++ [("help", helpAbout)]) ++ ["", "Options:"] ++
    optionRows (inHelpOrder (placed programOptions))
      [helpRow, ("-V, --version", "Print version")] ++ [""]

def helpHelp : String :=
  let mark := "[COMMAND]..."
  Text.joinWith "\n" <|
    [helpAbout, "", "Usage: " ++ programName ++ " help " ++ mark, "", "Arguments:"] ++
    columns [(mark, "Print help for the subcommand(s)")] ++ [""]

def CommandUsage.usage (c : CommandUsage) : String :=
  Text.joinWith " " <|
    ["Usage:", programName, c.name, "[OPTIONS]"] ++
    (c.options.filter (·.required)).map OptionUsage.mark ++ c.argument.toList.map ArgumentUsage.mark

def CommandUsage.help (c : CommandUsage) : String :=
  let arguments := c.argument.toList.map fun a => (a.mark, a.about)
  Text.joinWith "\n" <|
    [c.about, "", c.usage, ""] ++
    (if arguments.isEmpty then [] else ["Arguments:"] ++ columns arguments ++ [""]) ++
    ["Options:"] ++
    optionRows (inHelpOrder (placed c.options ++ placed programOptions)) [helpRow] ++ [""]

inductive Topic where
  | program
  | help
  | command (c : CommandUsage)
  deriving DecidableEq, Repr

def Topic.text : Topic → String
  | .program => programHelp
  | .help => helpHelp
  | .command c => c.help

end CoverageLedger.CommandLine
