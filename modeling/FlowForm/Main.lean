import FlowForm.CommandLine.Run

/-!
# The program

Reads the files that the command line names, runs the command and prints its report. This is the
only module that touches the outside world.
-/

namespace FlowForm.CommandLine

/-- In the outside world a computation takes the time that the clock shows. -/
instance : Stopwatch IO where
  measure f := do
    let before ← IO.monoNanosNow
    let result ← IO.lazyPure f
    let after ← IO.monoNanosNow
    return (result, after - before)

/-- The items of the listing in a file. -/
def loadFile (file : String) : IO (Except ListingError (List Item)) := do
  try
    return Listing.parseBytes (← IO.FS.readBinFile file)
  catch _ =>
    return .error .unreadable

/-- A loader over files that have been read. -/
def loaderOf (files : List (String × Except ListingError (List Item))) : Loader :=
  fun file => (files.lookup file).getD (.error .unreadable)

/-- The report on a command line. -/
def respond (args : List String) : IO Report := do
  match readArguments args with
  | .error e => return usageReport e
  | .ok request =>
    let files ← request.files.mapM fun file => do return (file, ← loadFile file)
    runRequest (loaderOf files) Metrics.seconds request

end FlowForm.CommandLine

/-- Answers one command line: the report goes to standard output, a complaint to standard error. -/
def main (args : List String) : IO UInt32 := do
  let report ← FlowForm.CommandLine.respond args
  IO.print report.output
  if let some text := report.complaint then
    IO.eprintln ("error: " ++ text)
  return report.exitCode.toUInt32
