import RankOne.Num

/-!
# Bits — truth values in a circuit

    A bit is a constant, a variable that was constrained to be zero or one, or
    the negation of such a variable.  Gates fold constants away and push
    negations outwards, so that a gate on constants costs nothing and a gate on
    variables costs one variable and one constraint.

    The result of a gate on two variables has a value only in a run that solves.
    `choose` and `majority` take the value of their result from their operands,
    in any run.
-/

namespace RankOne

variable {p : Nat} [Modulus p] {ε : Type}

/-- A variable that holds zero or one, with its value where that is known. -/
structure BitVar where
  var : Variable
  value : Option Bool
deriving DecidableEq

namespace BitVar

/-- The bit as a linear combination. -/
def lc (x : BitVar) : LinComb p := .ofVar x.var

/-- Allocates a variable and constrains it to be zero or one.  The value is kept
    in any run. -/
def alloc (value : Option Bool) : Build p SynthesisError BitVar := do
  let x ← Build.aux "boolean" (value.map Fp.ofBool)
  Build.enforce "boolean constraint" (1 - .ofVar x.var) (.ofVar x.var) 0
  return ⟨x.var, value⟩

/-- Allocates the result of a gate; its value is known where the run has
    computed it. -/
def result (name : String) (value : Option Bool) : Build p SynthesisError BitVar := do
  let x ← Build.aux name (value.map Fp.ofBool)
  return ⟨x.var, x.value.bind fun _ => value⟩

/-- The values of two bits under a gate. -/
def valueOf (gate : Bool → Bool → Bool) (a b : BitVar) : Option Bool := do
  return gate (← a.value) (← b.value)

/-- Exclusive or. -/
def xor (a b : BitVar) : Build p SynthesisError BitVar := do
  let r ← result "xor result" (valueOf Bool.xor a b)
  Build.enforce "xor constraint" (a.lc + a.lc) b.lc (a.lc + b.lc - r.lc)
  return r

/-- Conjunction. -/
def and (a b : BitVar) : Build p SynthesisError BitVar := do
  let r ← result "and result" (valueOf Bool.and a b)
  Build.enforce "and constraint" a.lc b.lc r.lc
  return r

/-- The first bit and not the second. -/
def andNot (a b : BitVar) : Build p SynthesisError BitVar := do
  let r ← result "and not result" (valueOf (fun a b => a && !b) a b)
  Build.enforce "and not constraint" a.lc (1 - b.lc) r.lc
  return r

/-- Neither of two bits. -/
def nor (a b : BitVar) : Build p SynthesisError BitVar := do
  let r ← result "nor result" (valueOf (fun a b => !a && !b) a b)
  Build.enforce "nor constraint" (1 - a.lc) (1 - b.lc) r.lc
  return r

end BitVar

/-- A truth value in a circuit: a constant, a variable, or the negation of a
    variable. -/
inductive Bit where
  | const (b : Bool)
  | pos (x : BitVar)
  | neg (x : BitVar)
deriving DecidableEq

namespace Bit

instance : Inhabited Bit := ⟨.const false⟩

/-- The truth value, if known. -/
def value : Bit → Option Bool
  | .const b => some b
  | .pos x => x.value
  | .neg x => x.value.map (!·)

/-- Negation, which costs nothing. -/
def not : Bit → Bit
  | .const b => .const !b
  | .pos x => .neg x
  | .neg x => .pos x

/-- The bit times `coeff`, as a linear combination. -/
def lc (coeff : Fp p) : Bit → LinComb p
  | .const false => 0
  | .const true => .const coeff
  | .pos x => .single coeff x.var
  | .neg x => .const coeff - .single coeff x.var

/-- Exclusive or; negations move to the result. -/
def xor : Bit → Bit → Build p SynthesisError Bit
  | .const false, b => return b
  | a, .const false => return a
  | .const true, b => return b.not
  | a, .const true => return a.not
  | .pos a, .neg b => return .neg (← a.xor b)
  | .neg a, .pos b => return .neg (← b.xor a)
  | .pos a, .pos b => return .pos (← a.xor b)
  | .neg a, .neg b => return .pos (← a.xor b)

/-- Conjunction. -/
def and : Bit → Bit → Build p SynthesisError Bit
  | .const false, _ => return .const false
  | _, .const false => return .const false
  | .const true, b => return b
  | a, .const true => return a
  | .pos a, .neg b => return .pos (← a.andNot b)
  | .neg a, .pos b => return .pos (← b.andNot a)
  | .neg a, .neg b => return .pos (← a.nor b)
  | .pos a, .pos b => return .pos (← a.and b)

/-- The value of a function of three bits, if all three are known. -/
def valueOf₃ (f : Bool → Bool → Bool → Bool) (a b c : Bit) : Option Bool := do
  return f (← a.value) (← b.value) (← c.value)

/-- The bit `b` where `a` is set and `c` where it is not. -/
def choice (a b c : Bool) : Bool := Bool.xor (a && b) (!a && c)

/-- The value that at least two of three bits have. -/
def most (a b c : Bool) : Bool := Bool.xor (Bool.xor (a && b) (a && c)) (b && c)

/-- Allocates the result of a choice between bits that no constant decides. -/
def chooseVar (a b c : Bit) : Build p SynthesisError Bit := do
  let value := valueOf₃ choice a b c
  let ch ← Build.aux "ch" (value.map Fp.ofBool)
  Build.enforce "ch computation" (b.lc 1 - c.lc 1) (a.lc 1) (.ofVar ch.var - c.lc 1)
  return .pos ⟨ch.var, value⟩

/-- The bit `b` where `a` is set and `c` where it is not. -/
def choose (a b c : Bit) : Build p SynthesisError Bit :=
  match a, b, c with
  | .const a, .const b, .const c => return .const (choice a b c)
  | .const false, _, c => return c
  | a, .const false, c => a.not.and c
  | a, b, .const false => a.and b
  | a, b, .const true => return (← a.and b.not).not
  | a, .const true, c => return (← a.not.and c.not).not
  | a, b, c => chooseVar a b c

/-- Allocates the majority of bits of which none is constant. -/
def majorityVar (a b c : Bit) : Build p SynthesisError Bit := do
  let value := valueOf₃ most a b c
  let maj ← Build.aux "maj" (value.map Fp.ofBool)
  let bc ← Build.within "b and c" <| b.and c
  Build.enforce "maj computation" (bc.lc 1 + bc.lc 1 - b.lc 1 - c.lc 1) (a.lc 1)
    (bc.lc 1 - .ofVar maj.var)
  return .pos ⟨maj.var, value⟩

/-- The value that at least two of three bits have. -/
def majority (a b c : Bit) : Build p SynthesisError Bit :=
  match a, b, c with
  | .const a, .const b, .const c => return .const (most a b c)
  | .const false, b, c => b.and c
  | a, .const false, c => a.and c
  | a, b, .const false => a.and b
  | a, b, .const true => return (← a.not.and b.not).not
  | a, .const true, c => return (← a.not.and c.not).not
  | .const true, b, c => return (← b.not.and c.not).not
  | a, b, c => majorityVar a b c

/-- Enforces that two bits are equal; two constants are compared at once. -/
def enforceEqual : Bit → Bit → Build p SynthesisError Unit
  | .const a, .const b => if a = b then return () else throw .unsatisfiable
  | .const true, b => Build.enforce "enforce equal to one" 0 0 (1 - b.lc 1)
  | a, .const true => Build.enforce "enforce equal to one" 0 0 (1 - a.lc 1)
  | .const false, b => Build.enforce "enforce equal to zero" 0 0 (b.lc 1)
  | a, .const false => Build.enforce "enforce equal to zero" 0 0 (a.lc 1)
  | a, b => Build.enforce "enforce equal" 0 0 (a.lc 1 - b.lc 1)

end Bit

end RankOne
