import Logo.Run.Poll

/-!
# The command line

What the arguments of the `logo` command ask for, and what it answers: text on
standard output, text on standard error and an exit code. The only thing it
needs from outside is the content of one file.
-/

namespace Logo
set_option autoImplicit false

inductive Command where
  | help
  | version
  | run (path : String) (depth : Nat)
  | parse (path : String)
  | eval (source : String)
  /-- Arguments that ask for nothing, with what is said about them. -/
  | misused (complaint : String) (showHelp : Bool)
  deriving DecidableEq, Repr

/-- What a command leaves. -/
structure Report where
  code : Nat := 0
  output : String := ""
  errors : String := ""
  deriving DecidableEq, Repr

/-- Every text with the end of a line behind it. -/
def lines (texts : List String) : String := String.join (texts.map fun t => t ++ "\n")

def helpText : String :=
  lines [
    "Logo interpreter",
    "",
    "Usage: logo <command> [options]",
    "",
    "Commands:",
    "  run <file.logo>      Run a Logo program",
    "  parse <file.logo>    Parse and print the instruction list",
    "  eval <source>        Run source text; print the final value, if any",
    "  help                 Show this help message",
    "  version              Show version information",
    "",
    "Run options:",
    "  --max-depth=<n>      Nested procedure call limit (default 10000)",
    "",
    "Ctrl-C breaks the running program.",
    "Set RUST_LOG (e.g. RUST_LOG=logo_eval=debug) for tracing output."]

def versionText : String := lines ["Logo 0.1.0"]

def runUsage : String := lines ["Usage: logo run <file.logo> [--max-depth=<n>]"]

def parseUsage : String := lines ["Usage: logo parse <file.logo>"]

def evalUsage : String := lines ["Usage: logo eval <source>", "Example: logo eval \"print 3 * 4\""]

/-- A limit: digits with an optional plus sign, below `2 ^ 64`. -/
def readLimit? (text : List Char) : Option Nat :=
  let digits := match text with
    | '+' :: ds => ds
    | ds => ds
  if digits.isEmpty || !digits.all Char.isDigit then none
  else
    let n := Decimal.digitsValue 0 digits
    if n < Decimal.twoPow 64 then some n else none

/-- The last component of a path; a component `.` counts only at the front. -/
def fileName? (path : String) : Option String :=
  let components := (path.splitOn "/").filter fun c => c != "" && c != "."
  match components.getLast? with
  | some ".." => none
  | name? => name?

/-- What follows the last dot of a file's name, if something precedes that dot. -/
def extension? (path : String) : Option String := do
  let name ← fileName? path
  let reversed := name.toList.reverse
  let ending := reversed.takeWhile (· != '.')
  match reversed.dropWhile (· != '.') with
  | '.' :: _ :: _ => some (String.ofList ending.reverse)
  | _ => none

/-- What is known of the arguments of `run` so far. -/
structure RunArgs where
  path : Option String := none
  depth : Nat := defaultDepth

/-- The option that sets the depth limit. -/
def depthOption : String := "--max-depth="

/-- Take in one argument of `run`. The first that begins with no dash is the
file; of several limits the last counts. -/
def RunArgs.take (r : RunArgs) (arg : String) : Except String RunArgs :=
  if depthOption.toList.isPrefixOf arg.toList then
    let text := arg.toList.drop depthOption.length
    match readLimit? text with
    | some depth => .ok { r with depth }
    | none => .error ("error: invalid --max-depth value '" ++ String.ofList text ++ "'\n")
  else if arg.toList.head? != some '-' && r.path.isNone then .ok { r with path := some arg }
  else .ok r

namespace Command

def ofRunArgs (args : List String) : Command :=
  if args.isEmpty then misused runUsage false
  else
    match args.foldlM RunArgs.take {} with
    | .error complaint => misused complaint false
    | .ok ⟨some path, depth⟩ => run path depth
    | .ok ⟨none, _⟩ => misused ("error: missing file path\n" ++ runUsage) false

/-- What the arguments ask for. -/
def ofArgs : List String → Command
  | [] => help
  | "run" :: args => ofRunArgs args
  | "parse" :: path :: _ => parse path
  | ["parse"] => misused parseUsage false
  | ["eval"] => misused evalUsage false
  | "eval" :: words => eval (joined " " words)
  | "help" :: _ | "--help" :: _ | "-h" :: _ => help
  | "version" :: _ | "--version" :: _ | "-v" :: _ => version
  | word :: _ =>
    match extension? word with
    | some ending =>
      if Text.sameName ending "logo" then run word defaultDepth
      else misused ("Unknown command: " ++ word ++ "\n\n") true
    | none => misused ("Unknown command: " ++ word ++ "\n\n") true

/-- The file whose content a command needs. -/
def file? : Command → Option String
  | run path _ | parse path => some path
  | _ => none

end Command

/-- Why a file could not be read. -/
inductive FileFault where
  | missing
  | denied
  | notText
  | other (text : String)
  deriving DecidableEq, Repr

def FileFault.message (path : String) : FileFault → String
  | missing => "cannot find file '" ++ path ++ "'"
  | denied => "permission denied reading '" ++ path ++ "'"
  | notText => "'" ++ path ++ "' contains invalid UTF-8 data"
  | other text => "error reading '" ++ path ++ "': " ++ text

namespace Report

/-- The exit code of a program that was stopped. -/
def stoppedCode : Nat := 130

def failure (message : String) : Report := { code := 1, errors := message ++ "\n" }

def ofFileFault (path : String) (f : FileFault) : Report := failure (f.message path)

/-- What is said at the end of a program from a file. -/
def ofCompletion (path : String) : Completion → Report
  | .completed => {}
  | .cancelled => { code := stoppedCode, errors := "stopped\n" }
  | .failed f => failure ("error: runtime error in '" ++ path ++ "': " ++ f.message)

/-- What is said at the end of a program from the command line. -/
def ofOutcome : Outcome → Report
  | .ok (some v) => { output := v.render ++ "\n" }
  | .ok none => {}
  | .error f => if f.kind = .cancelled then { code := stoppedCode } else failure ("error: " ++ f.message)

/-- The members of a program, one to a line. -/
def ofParse (path : String) : Except Source.Fault (List Value) → Report
  | .ok program => { output := lines (program.map Value.render) }
  | .error f => failure ("error: parse error in '" ++ path ++ "': " ++ f.message)

/-- A report with text in front of its output. -/
def after (r : Report) (text : String) : Report := { r with output := text ++ r.output }

end Report

/-- An engine for a program that stands alone. -/
def plainEngine (depth : Nat) : Engine Unit := Engine.new () (.buffer "") depth true

/-- Run a source to its end, and report what it printed and how it ended. A run
without an end says nothing more. -/
def runToReport (source : String) (depth : Nat) (ending : Outcome → Report) : Report :=
  let (outcome, e) := (plainEngine depth).complete ample ample (.created source)
  match outcome with
  | some o => (ending o).after e.sink.text
  | none => { output := e.sink.text }

/-- The report of a command, given the content of the file it needs. -/
def Command.report (content : String → Except FileFault String) : Command → Report
  | .help => { output := helpText }
  | .version => { output := versionText }
  | .misused complaint showHelp =>
    { code := 1, errors := complaint, output := if showHelp then helpText else "" }
  | .eval source => runToReport source defaultDepth Report.ofOutcome
  | .parse path =>
    match content path with
    | .error f => Report.ofFileFault path f
    | .ok source => Report.ofParse path (Logo.parse source)
  | .run path depth =>
    match content path with
    | .error f => Report.ofFileFault path f
    | .ok source => runToReport source depth fun o => Report.ofCompletion path (Completion.of o)

/-- A file's bytes as text. -/
def decodeFile : Option ByteArray → Except FileFault String
  | none => .error .missing
  | some bytes =>
    match String.fromUTF8? bytes with
    | some text => .ok text
    | none => .error .notText

end Logo
