import Logo.Command

/-!
# The `logo` command

Reads the file a command needs, polls the run and passes on what it prints as
soon as it is printed. A program that waits really waits.
-/

namespace Logo.Main
set_option autoImplicit false

def readContent (path : String) : IO (Except FileFault String) := do
  try
    return decodeFile (some (← IO.FS.readBinFile path))
  catch
    | .noFileOrDirectory .. => return .error .missing
    | .permissionDenied .. => return .error .denied
    | e => return .error (.other e.toString)

/-- Show what a report says and return its exit code. -/
def finish (r : Report) : IO UInt32 := do
  IO.print r.output
  IO.eprint r.errors
  return r.code.toUInt32

/-- Pass on what was printed. -/
def flush (e : Engine Unit) : IO (Engine Unit) := do
  let (text, sink) := e.sink.take
  unless text.isEmpty do
    IO.print text
    (← IO.getStdout).flush
  return { e with sink }

/-- Poll a run to its end. -/
partial def drive (e : Engine Unit) (r : Run) (ending : Outcome → Report) : IO UInt32 := do
  let (polled, r, e) := e.poll ample r
  let e ← flush e
  match polled with
  | .resolved outcome => finish (ending outcome)
  | .pending (.clock deadline) =>
    IO.sleep ((deadline - e.clock) / nanosecondsPerMillisecond + 1).toUInt32
    drive (e.elapse (deadline - e.clock)) r ending
  | _ => drive e r ending

def runCommand (c : Command) : IO UInt32 :=
  match c with
  | .eval source => drive (plainEngine defaultDepth) (.created source) Report.ofOutcome
  | .run path depth => do
    match ← readContent path with
    | .error f => finish (Report.ofFileFault path f)
    | .ok source => drive (plainEngine depth) (.created source) fun o =>
        Report.ofCompletion path (Completion.of o)
  | .parse path => do
    let content ← readContent path
    finish (c.report fun _ => content)
  | c => finish (c.report fun _ => .error .missing)

end Logo.Main

def main (args : List String) : IO UInt32 := Logo.Main.runCommand (Logo.Command.ofArgs args)
