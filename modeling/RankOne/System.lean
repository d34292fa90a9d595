import RankOne.Naming
import RankOne.Shape

/-!
# Systems — what a circuit has built so far

    A circuit is one program that is run in one of two ways.  A *compiling* run
    records rows and paths and never looks at a value; a *solving* run computes
    values and records neither.  Both number their variables alike, which is
    what lets a witness of the one be checked against the shape of the other.
-/

namespace RankOne

/-- What a run keeps: whether rows and paths are recorded, and whether values
    are computed and asked for. -/
structure Mode where
  records : Bool
  solves : Bool
deriving DecidableEq

/-- Rows and paths, no values. -/
def Mode.compiling : Mode := ⟨true, false⟩

/-- Values, no rows and no paths. -/
def Mode.solving : Mode := ⟨false, true⟩

/-- The state of a run: the number of private values and that of public inputs,
    the constant one not counted; their values in a run that solves, with the
    constant one first among the inputs; and the rows and the paths in a run
    that records. -/
structure System (p : Nat) where
  numAux : Nat
  numInputs : Nat
  aux : Array (Fp p)
  inputs : Array (Fp p)
  rows : Array (Row p)
  naming : Naming
deriving DecidableEq

namespace System

variable {p : Nat}

/-- Nothing but the constant one. -/
def start [Modulus p] : System p := ⟨0, 0, #[], #[1], #[], .start⟩

/-- The rows recorded so far, with the number of variables. -/
def shape (s : System p) : Shape p := ⟨s.rows, s.numAux, s.numInputs⟩

/-- The values computed so far. -/
def witness (s : System p) : Witness p := ⟨s.aux, s.inputs⟩

/-- The shape, unless a name was at fault. -/
def finish (s : System p) : Except GadgetError (Shape p) :=
  match s.naming.fault with
  | some fault => .error (.synthesis fault.message)
  | none => .ok s.shape

/-- Gives a name its path. -/
def claim (name : String) (s : System p) : System p :=
  { s with naming := s.naming.claim name }

/-- Opens a namespace. -/
def enter (name : String) (s : System p) : System p :=
  { s with naming := s.naming.enter name }

/-- Closes the innermost namespace. -/
def leave (s : System p) : System p :=
  { s with naming := s.naming.leave }

/-- Records a constraint. -/
def addRow (name : String) (a b c : LinComb p) (s : System p) : System p :=
  { s with
    rows := s.rows.push ⟨s.naming.pathOf name, a, b, c⟩
    naming := s.naming.claim name }

/-- Counts one more private value. -/
def countAux (s : System p) : System p := { s with numAux := s.numAux + 1 }

/-- Counts one more public input. -/
def countInput (s : System p) : System p := { s with numInputs := s.numInputs + 1 }

/-- Keeps the value of a private variable. -/
def pushAux (v : Fp p) (s : System p) : System p := { s with aux := s.aux.push v }

/-- Keeps the value of a public input. -/
def pushInput (v : Fp p) (s : System p) : System p := { s with inputs := s.inputs.push v }

end System

end RankOne
