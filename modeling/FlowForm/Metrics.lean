import FlowForm.Numeral
import Std.Data.TreeMap

/-!
# Metrics

Counters and duration samples, both under textual **keys**. Counters are words of 64 bits and go
round at their end. A key exists from the first time it is written on, also if what is written is
zero, and keys are listed in their order as texts.
-/

namespace FlowForm

/-- What has been counted and measured so far. Durations are in nanoseconds. -/
structure Metrics where
  counters : Std.TreeMap String Nat := {}
  samples : Std.TreeMap String (List Nat) := {}

namespace Metrics

/-- The key of a name with labels, which stand in braces in the order given. -/
def key (name : String) (labels : List (String × String)) : String :=
  match labels with
  | [] => name
  | _ => name ++ "\x7b" ++ ",".intercalate (labels.map fun (k, v) => k ++ "=" ++ v) ++ "\x7d"

/-- The value of a counter, if it has ever been written. -/
def counter? (m : Metrics) (key : String) : Option Nat :=
  m.counters[key]?

/-- The samples under a key, in order. -/
def samples? (m : Metrics) (key : String) : Option (List Nat) :=
  m.samples[key]?

/-- Adds to a counter. -/
def increment (m : Metrics) (key : String) (n : Nat) : Metrics :=
  { m with counters :=
      m.counters.insert key (((m.counter? key).getD 0 + n) % Numeral.wordBound) }

/-- Sets a counter. -/
def setCounter (m : Metrics) (key : String) (n : Nat) : Metrics :=
  { m with counters := m.counters.insert key n }

/-- Adds a sample. -/
def addSample (m : Metrics) (key : String) (nanos : Nat) : Metrics :=
  { m with samples := m.samples.insert key ((m.samples? key).getD [] ++ [nanos]) }

/-! ### What runs record -/

/-- Key of the number of finished runs. -/
def runsKey : String := "flowdec_runs_total"

/-- Key of the number of blocks in finished graphs. -/
def blocksKey : String := "flowdec_blocks_total"

/-- Key of the number of placeholders in finished graphs. -/
def phisKey : String := "flowdec_phis_total"

/-- Key of the durations of a step. -/
def stepKey (step : String) : String :=
  key "flowdec_step_duration_seconds" [("step", step)]

/-- Records a finished run. -/
def recordRun (m : Metrics) (blocks phis : Nat) : Metrics :=
  ((m.increment runsKey 1).increment blocksKey blocks).increment phisKey phis

/-- Records how long a step took. -/
def recordStep (m : Metrics) (step : String) (nanos : Nat) : Metrics :=
  m.addSample (stepKey step) nanos

/-! ### Summary -/

/-- A duration in seconds with six decimals. -/
def seconds (nanos : Nat) : String :=
  let micros := (nanos + 500) / 1000
  let digits := toString (micros % 1000000)
  toString (micros / 1000000) ++ "." ++
    String.ofList (List.replicate (6 - digits.length) '0') ++ digits ++ "s"

/-- The lines of the summary, given how to print a sum of durations. -/
def summaryLines (m : Metrics) (total : Nat → String) : List String :=
  if m.counters.isEmpty && m.samples.isEmpty then
    ["No metrics collected."]
  else
    ["", "## Metrics Summary"] ++
      m.counters.toList.map (fun (key, n) => "  " ++ key ++ ": " ++ toString n) ++
      m.samples.toList.map fun (key, nanos) =>
        "  " ++ key ++ ": count=" ++ toString nanos.length ++
          " total=" ++ total (nanos.foldl (· + ·) 0)

/-- The summary as text; every line ends with a line break. -/
def summary (m : Metrics) (total : Nat → String := seconds) : String :=
  String.join ((m.summaryLines total).map (· ++ "\n"))

end Metrics

end FlowForm
