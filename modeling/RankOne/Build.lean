import RankOne.System

/-!
# Building — circuits as programs

    `Build p ε α` is a circuit over the field of order `p` which gives an `α` or
    stops with an `ε`.  What it has allocated and enforced before it stops
    stays.  There are four primitives: a private variable, a public input, a
    constraint, and a namespace around a part of the circuit.

    A circuit never asks which way it is run.  The primitives do: in a run that
    solves, a variable without a value is an error, and nothing is allocated; in
    any other run no value is looked at, and what is allocated has none.
-/

namespace RankOne

/-- A circuit, with what it may fail with and what it gives. -/
abbrev Build (p : Nat) (ε : Type) := ReaderT Mode (EStateM ε (System p))

/-- A variable, with its value where that is known. -/
structure Num (p : Nat) where
  var : Variable
  value : Option (Fp p)
deriving DecidableEq

variable {p : Nat} {ε α : Type}

namespace Build

/-- Runs a circuit from a system that holds only the constant one. -/
def start [Modulus p] (mode : Mode) (body : Build p ε α) : EStateM.Result ε (System p) α :=
  body mode .start

/-- Changes what is recorded, in a run that records. -/
@[inline] def recording (mode : Mode) (change : System p → System p) (s : System p) : System p :=
  if mode.records then change s else s

/-- Opens a namespace until the matching `leave`. -/
@[inline] def enter (name : String) : Build p ε Unit := fun mode s =>
  .ok () (recording mode (·.enter name) s)

/-- Closes the innermost namespace; without one it does nothing. -/
@[inline] def leave : Build p ε Unit := fun mode s =>
  .ok () (recording mode (·.leave) s)

/-- Runs `body` in a namespace, which is closed again whether `body` fails or
    not. -/
@[inline] def within (name : String) (body : Build p ε α) : Build p ε α := fun mode s =>
  match body mode (recording mode (·.enter name) s) with
  | .ok a s => .ok a (recording mode (·.leave) s)
  | .error e s => .error e (recording mode (·.leave) s)

/-- Enforces that the product of `a` and `b` is `c`. -/
@[inline] def enforce (name : String) (a b c : LinComb p) : Build p ε Unit := fun mode s =>
  .ok () (recording mode (·.addRow name a b c) s)

/-- A fresh private variable. -/
@[inline] def aux (name : String) (value : Option (Fp p)) : Build p SynthesisError (Num p) :=
  fun mode s =>
    let var := Variable.aux s.numAux
    match mode.solves, value with
    | false, _ => .ok ⟨var, none⟩ (recording mode (·.claim name) s.countAux)
    | true, some v => .ok ⟨var, some v⟩ (recording mode (·.claim name) (s.countAux.pushAux v))
    | true, none => .error .assignmentMissing s

/-- A fresh public input. -/
@[inline] def input (name : String) (value : Option (Fp p)) : Build p SynthesisError (Num p) :=
  fun mode s =>
    let var := Variable.input (s.numInputs + 1)
    match mode.solves, value with
    | false, _ => .ok ⟨var, none⟩ (recording mode (·.claim name) s.countInput)
    | true, some v => .ok ⟨var, some v⟩ (recording mode (·.claim name) (s.countInput.pushInput v))
    | true, none => .error .assignmentMissing s

/-- The results of `body` for the numbers below `m`, up to the first `n` of
    them. -/
@[specialize] def tabulateTo {m : Nat} (body : Fin m → Build p ε α) :
    (n : Nat) → n ≤ m → Build p ε (Vector α n)
  | 0, _ => return #v[]
  | n + 1, le => do
    let results ← tabulateTo body n (Nat.le_of_succ_le le)
    return results.push (← body ⟨n, le⟩)

/-- The results of `body` for the numbers below `n`, in order. -/
@[inline] def tabulate {n : Nat} (body : Fin n → Build p ε α) : Build p ε (Vector α n) :=
  tabulateTo body n (Nat.le_refl n)

/-- A circuit whose failures are reported under another type. -/
def mapError {ε' : Type} (f : ε → ε') (body : Build p ε α) : Build p ε' α := fun mode s =>
  match body mode s with
  | .ok a s => .ok a s
  | .error e s => .error (f e) s

instance : MonadLift (Build p SynthesisError) (Build p GadgetError) :=
  ⟨mapError SynthesisError.toGadgetError⟩

end Build

end RankOne
