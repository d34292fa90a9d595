import RankOne.Build

/-!
# Numbers — arithmetic on variables

    A number is a variable with its value where that is known.  Each operation
    allocates its result, computes the value that the result should have, and
    enforces the constraints that force it to have that value; the constraints
    never depend on a value.

    | operation | constraints |
    |---|---|
    | `constant`, `add`, `mul`, `select` | 1 |
    | `isZero` | 2 |
    | `assertEqual`, `assertNonzero` | 1 |
-/

namespace RankOne

variable {p : Nat} [Modulus p] {ε : Type}

/-- A linear combination with its value where that is known. -/
structure LinNum (p : Nat) where
  value : Option (Fp p)
  comb : LinComb p
deriving DecidableEq

namespace LinNum

/-- A constant. -/
def const (c : Fp p) : LinNum p := ⟨some c, .const c⟩

/-- The combination times a constant. -/
def lc (x : LinNum p) (coeff : Fp p) : LinComb p := x.comb.scale coeff

end LinNum

namespace Num

/-- The number as a linear combination. -/
def lc (x : Num p) : LinComb p := .ofVar x.var

/-- The number as a combination that carries its value. -/
def toLinNum (x : Num p) : LinNum p := ⟨x.value, x.lc⟩

/-- Allocates a private number. -/
def alloc (value : Option (Fp p)) : Build p SynthesisError (Num p) := Build.aux "num" value

/-- Allocates a public number. -/
def allocInput (value : Option (Fp p)) : Build p SynthesisError (Num p) :=
  Build.input "input num" value

/-- Allocates a private number and pins it to a constant. -/
def constant (c : Fp p) : Build p SynthesisError (Num p) := do
  let x ← Build.within "value" <| alloc (some c)
  Build.enforce "constant" x.lc 1 (.const c)
  return x

/-- The sum. -/
def add (a b : Num p) : Build p SynthesisError (Num p) := do
  let value := do return (← a.value) + (← b.value)
  let sum ← Build.within "sum" <| alloc value
  Build.enforce "a + b = sum" (a.lc + b.lc) 1 sum.lc
  return sum

/-- The product. -/
def mul (a b : Num p) : Build p SynthesisError (Num p) := do
  let value := do return (← a.value) * (← b.value)
  let product ← Build.aux "product num" value
  Build.enforce "multiplication constraint" a.lc b.lc product.lc
  return product

/-- One if the number is zero, and zero otherwise.  With `inv` any inverse, the
    first constraint makes the result one when the number is zero; the second
    makes it zero when it is not. -/
def isZero (x : Num p) : Build p SynthesisError (Num p) := do
  let inv ← Build.within "inv" <| alloc (x.value.map Fp.inv)
  let out ← Build.within "out" <| alloc (x.value.map fun v => Fp.ofBool (v = 0))
  Build.enforce "x * inv = 1 - out" x.lc inv.lc (1 - out.lc)
  Build.enforce "x * out = 0" x.lc out.lc 0
  return out

/-- The number `a` if `cond` is one and `b` if it is zero; that `cond` is one of
    the two has to be enforced elsewhere.  Only the value of the operand that is
    selected is asked for. -/
def select (cond a b : Num p) : Build p SynthesisError (Num p) := do
  let value := do if (← cond.value) = 0 then b.value else a.value
  let out ← Build.within "out" <| alloc value
  Build.enforce "select" cond.lc (a.lc - b.lc) (out.lc - b.lc)
  return out

/-- Enforces that two numbers are equal. -/
def assertEqual (a b : Num p) : Build p ε Unit :=
  Build.enforce "a = b" a.lc 1 b.lc

/-- Enforces that a number is not zero, by an inverse of it.  A number that is
    zero leaves the constraint unsatisfied; it is no error. -/
def assertNonzero (x : Num p) : Build p SynthesisError Unit := do
  let inv ← Build.within "inv" <| alloc (x.value.map Fp.inv)
  Build.enforce "x * inv = 1" x.lc inv.lc 1

end Num

end RankOne
