import RankOne.Field

/-!
# Linear combinations — sparse sums of variables

    A variable is a public input or a private value, each numbered from zero;
    public input zero is the constant one.  A linear combination holds at most
    one term for a variable, newest variable first, so that adding a fresh
    variable costs nothing.  A term whose coefficient becomes zero stays:
    merging changes how a sum is stored, never its value.
-/

namespace RankOne

/-- A variable of a constraint system: a public input, of which number zero is
    the constant one, or a private value. -/
inductive Variable where
  | input (i : Nat)
  | aux (i : Nat)
deriving DecidableEq

namespace Variable

/-- The public input that always holds one. -/
def one : Variable := .input 0

/-- Public inputs come before private values, and each kind is in order of
    number. -/
def precedes : Variable → Variable → Bool
  | .input i, .input j => i < j
  | .input _, .aux _ => true
  | .aux _, .input _ => false
  | .aux i, .aux j => i < j

end Variable

/-- A variable with its coefficient. -/
structure Term (p : Nat) where
  var : Variable
  coeff : Fp p
deriving DecidableEq

/-- A sparse sum of variables, each with a coefficient, latest variable
    first. -/
structure LinComb (p : Nat) where
  latestFirst : List (Term p)
deriving DecidableEq

namespace LinComb

variable {p : Nat}

/-- The terms in order: public inputs, then private values. -/
def terms (l : LinComb p) : List (Term p) := l.latestFirst.reverse

variable [Modulus p]

/-- The sum of no terms. -/
instance : Zero (LinComb p) := ⟨⟨[]⟩⟩

instance : Inhabited (LinComb p) := ⟨0⟩

/-- Puts a term in its place, adding its coefficient to the one which is
    there. -/
def insert (t : Term p) : List (Term p) → List (Term p)
  | [] => [t]
  | u :: rest =>
    if t.var = u.var then ⟨u.var, u.coeff + t.coeff⟩ :: rest
    else if u.var.precedes t.var then t :: u :: rest
    else u :: insert t rest

/-- The combination with one more term. -/
def addTerm (l : LinComb p) (coeff : Fp p) (var : Variable) : LinComb p :=
  ⟨insert ⟨var, coeff⟩ l.latestFirst⟩

/-- A single term. -/
def single (coeff : Fp p) (var : Variable) : LinComb p := ⟨[⟨var, coeff⟩]⟩

/-- A variable with coefficient one. -/
def ofVar (var : Variable) : LinComb p := single 1 var

/-- A constant, as a multiple of the variable that holds one. -/
def const (c : Fp p) : LinComb p := single c .one

/-- The constant one. -/
instance : One (LinComb p) := ⟨const 1⟩

/-- Every coefficient multiplied by `c`. -/
def scale (c : Fp p) (l : LinComb p) : LinComb p :=
  ⟨l.latestFirst.map fun t => ⟨t.var, t.coeff * c⟩⟩

instance : Add (LinComb p) := ⟨fun l m => ⟨m.latestFirst.foldr insert l.latestFirst⟩⟩

instance : Neg (LinComb p) := ⟨fun l => ⟨l.latestFirst.map fun t => ⟨t.var, -t.coeff⟩⟩⟩

instance : Sub (LinComb p) := ⟨fun l m => l + -m⟩

/-- The value of the combination under an assignment. -/
def eval (z : Variable → Fp p) (l : LinComb p) : Fp p :=
  l.latestFirst.foldr (fun t acc => t.coeff * z t.var + acc) 0

end LinComb

end RankOne
