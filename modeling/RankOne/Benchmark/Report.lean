import RankOne.Benchmark.Circuit

/-!
# Benchmark runs — compile once, then solve and check

    A run compiles its circuit once, then solves it and checks the witness
    against the shape as often as it is told to, and stops at the first failure.
    Time is read from a clock that the caller supplies, in whole nanoseconds.
-/

namespace RankOne.Benchmark

/-- What a run has found: the sizes of the circuit, with the constant one not
    counted among the public inputs, how long it took to compile, and how long
    each solution and each check took. -/
structure Report where
  circuit : String
  numRows : Nat
  numAux : Nat
  numInputs : Nat
  compile : Nat
  solve : List Nat
  check : List Nat
deriving DecidableEq

/-- The mean of some durations, cut to whole nanoseconds.  It is zero where
    there are none, and where their number does not fit into 32 bits. -/
def mean (samples : List Nat) : Nat :=
  if samples.length < UInt32.size then samples.foldl (· + ·) 0 / samples.length else 0

namespace Report

/-- The mean time of a solution. -/
def meanSolve (r : Report) : Nat := mean r.solve

/-- The mean time of a check. -/
def meanCheck (r : Report) : Nat := mean r.check

/-- The text of a whole number of units with a fraction of `digits` decimals,
    without the zeros that end it. -/
def decimal (whole fraction digits : Nat) : String :=
  let shown := (toString fraction).toList
  let padded := List.replicate (digits - shown.length) '0' ++ shown
  let trimmed := (padded.reverse.dropWhile (· = '0')).reverse
  if trimmed.isEmpty then toString whole else toString whole ++ "." ++ String.ofList trimmed

/-- The text of a duration, in the largest unit of which it holds at least
    one. -/
def duration (ns : Nat) : String :=
  if 1000000000 ≤ ns then decimal (ns / 1000000000) (ns % 1000000000) 9 ++ "s"
  else if 1000000 ≤ ns then decimal (ns / 1000000) (ns % 1000000) 6 ++ "ms"
  else if 1000 ≤ ns then decimal (ns / 1000) (ns % 1000) 3 ++ "µs"
  else toString ns ++ "ns"

/-- The sizes of the circuit, in one line. -/
def sizes (r : Report) : String :=
  let (circuit, rows, aux) := (r.circuit, r.numRows, r.numAux)
  s!"{circuit}: {rows} constraints, {aux} variables"

/-- The sizes and the times, in one line. -/
def summary (r : Report) : String :=
  let compile := duration r.compile
  let solve := duration r.meanSolve
  let check := duration r.meanCheck
  r.sizes ++ s!", compile {compile}, solve {solve}, check {check}"

end Report

/-! ## Runs -/

section Run

variable {p : Nat} [Modulus p] {m : Type → Type} [Monad m]

/-- The result of a computation that may fail, with the time that it took. -/
def timed {α : Type} (now : m Nat) (work : Unit → Except GadgetError α) :
    ExceptT GadgetError m (α × Nat) := do
  let start ← now
  let result ← work ()
  let stop ← now
  return (result, stop - start)

/-- Solves and checks `n` times; gives the times of each, in order. -/
def iterate (now : m Nat) (c : Circuit p) (shape : Shape p) :
    Nat → ExceptT GadgetError m (List Nat × List Nat)
  | 0 => return ([], [])
  | n + 1 => do
    let (witness, solve) ← timed now fun _ => c.solve
    let (_, check) ← timed now fun _ => shape.check witness
    let (solves, checks) ← iterate now c shape n
    return (solve :: solves, check :: checks)

/-- Compiles a circuit, then solves and checks it `iterations` times. -/
def run (now : m Nat) (c : Circuit p) (iterations : Nat) : ExceptT GadgetError m Report := do
  let (shape, compile) ← timed now fun _ => c.compile
  let (solve, check) ← iterate now c shape iterations
  return ⟨c.name, shape.rows.size, shape.numAux, shape.numInputs, compile, solve, check⟩

end Run

end RankOne.Benchmark
