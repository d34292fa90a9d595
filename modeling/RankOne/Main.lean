import RankOne.CommandLine

/-!
# The program — reads its arguments, runs a circuit, prints a line
-/

namespace RankOne.CommandLine

/-- How the program is used. -/
def usage : String :=
  "Arguments: CIRCUIT [--iterations N]\n\n" ++
  "CIRCUIT is one of pre-block, tx-loop and verify-block. It is compiled once, then solved and\n" ++
  "checked N times, once if N is not given."

/-- Prints how the program has ended; gives its exit code. -/
def announce (outcome : Outcome) : IO UInt32 := do
  match outcome with
  | .report report => IO.println report.summary
  | .help => IO.println usage
  | .failure cause => IO.eprintln s!"Error: {cause.message}"
  | .misuse => IO.eprintln usage
  return outcome.exitCode.toUInt32

end RankOne.CommandLine

/-- Runs the circuit that the arguments name. -/
def main (args : List String) : IO UInt32 := do
  RankOne.CommandLine.announce (← RankOne.CommandLine.perform IO.monoNanosNow args)
