import RankOne.Benchmark.Report
import RankOne.Field.Moduli

/-!
# The command line — one circuit, a number of times

    One positional argument names the circuit; `--iterations` says how often it
    is solved and checked, once if it is not given.  Arguments are read from
    left to right, and the first that is wrong ends the reading; a request for
    help which comes before that wins.
-/

namespace RankOne.CommandLine

open Benchmark

/-- The circuits that can be named. -/
inductive CircuitName where
  | preBlock
  | txLoop
  | verifyBlock
deriving DecidableEq

/-- The circuit that an argument names. -/
def CircuitName.ofString? : String → Option CircuitName
  | "pre-block" => some .preBlock
  | "tx-loop" => some .txLoop
  | "verify-block" => some .verifyBlock
  | _ => none

/-- The circuit at full scale. -/
def CircuitName.circuit {p : Nat} [Modulus p] (x y : Fp p) : CircuitName → Circuit p
  | .preBlock => .preBlock { x, y }
  | .txLoop => .txLoop { x, y }
  | .verifyBlock => .verifyBlock { x, y }

/-- What the arguments ask for: a run, help, or nothing that makes sense. -/
inductive Request where
  | run (circuit : CircuitName) (iterations : Nat)
  | help
  | misuse
deriving DecidableEq

/-- A count in decimal, with or without a plus sign, that fits 64 bits. -/
def count? (text : String) : Option Nat :=
  let digits := match text.toList with
    | '+' :: rest => rest
    | all => all
  if digits.isEmpty || !digits.all Char.isDigit then none
  else
    let n := digits.foldl (fun n c => 10 * n + (c.toNat - '0'.toNat)) 0
    if n < UInt64.size then some n else none

/-- An argument by its form.  The option for the number of iterations has its
    value after it or with it; everything after the end of the options is
    positional. -/
inductive Arg where
  | iterations
  | iterationsIs (value : String)
  | help
  | endOfOptions
  | unknown
  | positional (text : String)
deriving DecidableEq

/-- The form of an argument.  Letters may be joined behind one dash, and only
    the first of them counts, for it either asks for help or is unknown. -/
def Arg.ofString (text : String) : Arg :=
  match text.toList with
  | ['-', '-'] => .endOfOptions
  | '-' :: '-' :: long =>
    let name := long.takeWhile (· ≠ '=')
    let value := long.dropWhile (· ≠ '=')
    if name = "iterations".toList then
      if value.isEmpty then .iterations else .iterationsIs (String.ofList value.tail)
    else if long = "help".toList then .help
    else .unknown
  | '-' :: 'h' :: _ => .help
  | '-' :: _ :: _ => .unknown
  | _ => .positional text

/-- The circuit and the number of iterations, as far as they have been read. -/
structure Seen where
  circuit : Option CircuitName := none
  iterations : Option Nat := none

namespace Seen

/-- Reads a positional argument; there is one at most. -/
def positional (seen : Seen) (text : String) : Option Seen :=
  match seen.circuit, CircuitName.ofString? text with
  | none, some name => some { seen with circuit := some name }
  | _, _ => none

/-- Reads a number of iterations; it is given once at most. -/
def count (seen : Seen) (text : String) : Option Seen :=
  match seen.iterations, count? text with
  | none, some n => some { seen with iterations := some n }
  | _, _ => none

/-- What the arguments ask for once all of them are read. -/
def request (seen : Seen) : Request :=
  match seen.circuit with
  | some name => .run name (seen.iterations.getD 1)
  | none => .misuse

/-- Reads arguments that are all positional. -/
def readPositional (seen : Seen) : List String → Request
  | [] => seen.request
  | text :: rest =>
    match seen.positional text with
    | some seen => seen.readPositional rest
    | none => .misuse

/-- Reads arguments from left to right. -/
def read (seen : Seen) : List String → Request
  | [] => seen.request
  | text :: rest =>
    match Arg.ofString text, rest with
    | .help, _ => .help
    | .unknown, _ => .misuse
    | .endOfOptions, rest => seen.readPositional rest
    | .iterations, [] => .misuse
    | .iterations, value :: rest =>
      match seen.count value with
      | some seen => seen.read rest
      | none => .misuse
    | .iterationsIs value, rest =>
      match seen.count value with
      | some seen => seen.read rest
      | none => .misuse
    | .positional text, rest =>
      match seen.positional text with
      | some seen => seen.read rest
      | none => .misuse

end Seen

/-- What the arguments ask for. -/
def parse (args : List String) : Request := Seen.read {} args

/-- How the program ends: with a report or the cause of a failure, or without a
    run because help was asked for or the arguments were wrong. -/
inductive Outcome where
  | report (report : Report)
  | failure (cause : GadgetError)
  | help
  | misuse

/-- The exit code of an end. -/
def Outcome.exitCode : Outcome → UInt8
  | .report _ => 0
  | .help => 0
  | .failure _ => 1
  | .misuse => 2

/-- Does what the arguments ask for, at full scale and on the common inputs. -/
def perform {m : Type → Type} [Monad m] (now : m Nat) (args : List String) : m Outcome := do
  match parse args with
  | .help => return .help
  | .misuse => return .misuse
  | .run name iterations =>
    let (x, y) := Benchmark.inputs (p := Moduli.bn256)
    match ← (Benchmark.run now (name.circuit x y) iterations).run with
    | .ok report => return .report report
    | .error cause => return .failure cause

end RankOne.CommandLine
