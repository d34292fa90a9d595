import RankOne.LinComb
import RankOne.Error

/-!
# Shapes and witnesses — rank-1 constraints and their check

    A row asks that the product of two linear combinations equals a third.  A
    shape is a list of rows with the number of variables they range over; a
    witness gives those variables values.  `Shape.check` compares the lengths
    first and then names the first row which fails.
-/

namespace RankOne

variable {p : Nat}

/-- One constraint under its full path: the product of `a` and `b` equals
    `c`. -/
structure Row (p : Nat) where
  path : String
  a : LinComb p
  b : LinComb p
  c : LinComb p
deriving DecidableEq

/-- The constraints of a circuit in the order in which they were enforced, with
    the number of its private values and that of its public inputs, the constant
    one not counted. -/
structure Shape (p : Nat) where
  rows : Array (Row p)
  numAux : Nat
  numInputs : Nat
deriving DecidableEq

/-- Values for the variables of a circuit: the private values, and the public
    inputs with the constant one first. -/
structure Witness (p : Nat) where
  aux : Array (Fp p)
  inputs : Array (Fp p)
deriving DecidableEq

/-- The path of constraint number `i`. -/
def Shape.path? (shape : Shape p) (i : Nat) : Option String := shape.rows[i]?.map (·.path)

variable [Modulus p]

/-- The value of a variable; a variable that the witness does not reach is
    zero. -/
def Witness.value (w : Witness p) : Variable → Fp p
  | .input i => w.inputs.getD i 0
  | .aux i => w.aux.getD i 0

/-- The constraint holds under an assignment. -/
def Row.Holds (row : Row p) (z : Variable → Fp p) : Prop :=
  row.a.eval z * row.b.eval z = row.c.eval z

instance (row : Row p) (z : Variable → Fp p) : Decidable (row.Holds z) :=
  inferInstanceAs (Decidable (_ = _))

namespace Shape

/-- The number of the first constraint that an assignment breaks. -/
def firstFailing? (shape : Shape p) (z : Variable → Fp p) : Option Nat :=
  shape.rows.findIdx? fun row => !decide (row.Holds z)

/-- Names a constraint that fails, by its number and its path. -/
def failure (shape : Shape p) (i : Nat) : GadgetError :=
  let path := (shape.path? i).getD ""
  .unsatisfied s!"constraint {i} ({path}) is unsatisfied"

/-- Accepts the witnesses of the right lengths that satisfy every constraint. -/
def check (shape : Shape p) (w : Witness p) : Except GadgetError Unit :=
  if w.aux.size ≠ shape.numAux then
    .error (.invalidWitnessLength shape.numAux w.aux.size)
  else if w.inputs.size ≠ shape.numInputs + 1 then
    .error (.invalidWitnessLength (shape.numInputs + 1) w.inputs.size)
  else match shape.firstFailing? w.value with
    | some i => .error (shape.failure i)
    | none => .ok ()

end Shape

end RankOne
