import FlowForm.CommandLine.Arguments
import FlowForm.Graph.Printer
import FlowForm.Pipeline.Batch

/-!
# Running commands

What the commands do and print. Files come in through a function that gives the items of the
listing with a given name, so that nothing here depends on how they are read.
-/

namespace FlowForm.CommandLine

/-- The name and version that the program prints about itself. -/
def versionText : String := "flowdec 0.1.0\n"

/-- What a command leaves behind. -/
structure Report where
  exitCode : Nat
  output : String := ""
  /-- What is said about the failure, if there is one. -/
  complaint : Option String := none

/-- Exit code of a command that went well. -/
def success : Nat := 0

/-- Exit code of a command that failed. -/
def failure : Nat := 1

/-- Exit code of a command line that is refused. -/
def usageFailure : Nat := 2

/-- Gives the items of the listing in a file. -/
abbrev Loader := String → Except ListingError (List Item)

section

variable {m : Type → Type} [Monad m] [Stopwatch m]

/-- Runs `dump`. What has been built before a failure is printed too. -/
def runDump (load : Loader) (file : String) (step : Option String) (entry : Nat)
    (config : Config) : StateT Metrics m Report := do
  match load file with
  | .error e => return { exitCode := failure, complaint := some e.message }
  | .ok items =>
    let d := Decompiler.start (Source.ofItems items) entry config (← get)
    let action : Decompiler.RunM m Unit :=
      match step with
      | some name => Decompiler.runUntil name
      | none => Decompiler.runToCompletion
    let (result, d) ← action.run.run d
    set d.session.metrics
    let output := (d.state.flow.map (·.dump)).getD ""
    match result, d.state.flowGraph with
    | .error e, _ => return { exitCode := failure, output, complaint := some e.message }
    | .ok (), .error e => return { exitCode := failure, complaint := some e.message }
    | .ok (), .ok _ => return { exitCode := success, output }

/-- The line of `batch` for one outcome. -/
def outcomeLine (o : Outcome) : String :=
  o.name ++ ": " ++
    match o.result with
    | .ok s =>
      "ok blocks=" ++ toString ((s.flow.map (·.size)).getD 0) ++
        " phis=" ++ toString ((s.stats.map (·.phis)).getD 0) ++
        " pruned=" ++ toString (s.prunedPhis.getD 0)
    | .error e => "error " ++ e.message

/-- Whether a job failed. -/
def hasFailed (o : Outcome) : Bool :=
  match o.result with
  | .ok _ => false
  | .error _ => true

/-- Runs `batch`, unless one of the files cannot be loaded. -/
def runBatchCommand (load : Loader) (files : List String) (config : Config) :
    StateT Metrics m Report := do
  let jobs := files.mapM fun file => do
    return { name := file, source := Source.ofItems (← load file) : Job }
  match jobs with
  | .error e => return { exitCode := failure, complaint := some e.message }
  | .ok jobs =>
    let outcomes ← runBatch config jobs
    let output := String.join (outcomes.map fun o => outcomeLine o ++ "\n")
    let failed := outcomes.countP hasFailed
    if failed = 0 then
      return { exitCode := success, output }
    else
      let complaint := toString failed ++ " of " ++ toString outcomes.length ++ " failed"
      return { exitCode := failure, output, complaint := some complaint }

/-- Runs a command. -/
def Command.run (load : Loader) : Command → StateT Metrics m Report
  | dump file step entry config => runDump load file step entry config
  | batch files _ config => runBatchCommand load files config

/-- Runs the program on what its command line asks for. A summary of metrics follows the output of
the command, given how to print a sum of durations. How the program is used is described by the
parser of the command line, and nothing is left to be printed. -/
def runRequest (load : Loader) (total : Nat → String) : Request → m Report
  | .version => return { exitCode := success, output := versionText }
  | .help => return { exitCode := success }
  | .run invocation => do
    let (report, metrics) ← (invocation.command.run (m := m) load).run {}
    if invocation.metrics then
      return { report with output := report.output ++ metrics.summary total }
    else
      return report

/-- The report on a command line that is refused. -/
def usageReport (e : UsageError) : Report where
  exitCode := usageFailure
  complaint := some e.message

/-- The files that a request reads. -/
def Request.files : Request → List String
  | .run { command := .dump file _ _ _, .. } => [file]
  | .run { command := .batch files _ _, .. } => files
  | _ => []

end

end FlowForm.CommandLine
