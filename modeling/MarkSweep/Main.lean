import MarkSweep.Workload.CommandLine
/-!
# The program — runs a workload and writes the heap's log to standard error
-/
namespace MarkSweep
namespace Program

def heapBase : Address := 0x100000000

def showSeconds (milliseconds : Nat) : String :=
  let places := toString (milliseconds % 1000)
  let zeros := String.ofList (List.replicate (3 - places.length) '0')
  toString (milliseconds / 1000) ++ "." ++ zeros ++ places

def versionLine : String := "msweep 0.1.0"

def usage : List String :=
  ["Allocation workload driver for the mark-sweep heap", "", "Usage: msweep [OPTIONS]", "", "Options:"] ++
    Command.OptionName.all.map (fun n =>
      "  --" ++ n.text ++ " <N>  " ++ n.about ++ " [default: " ++ toString n.standard ++ "]") ++
    ["  -h, --help  Print help", "  -V, --version  Print version"]

def run (args : List String) : IO UInt32 := do
  match Command.parse args with
  | .help => usage.forM fun line => IO.println line
  | .version => IO.println versionLine
  | .invalid => IO.eprintln "error: the arguments do not fit; for more information, try '--help'"
  | .run _ => pure ()
  let before ← IO.monoMsNow
  let outcome := Command.execute args heapBase
  -- the lines are made only once the run is over
  let count := outcome.reports.size
  let after ← if count = 0 then pure before else IO.monoMsNow
  outcome.reports.forM fun r => IO.eprintln (r.line (showSeconds (after - before)))
  return UInt32.ofNat outcome.exitCode

end Program
end MarkSweep

def main (args : List String) : IO UInt32 := MarkSweep.Program.run args
