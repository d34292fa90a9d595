import RankOne.Bit

/-!
# Binary digits — decomposition, recomposition and comparison

    `LinNum.toBits` splits a combination into `n` digits, least significant
    first: every digit is constrained to be zero or one, and one constraint ties
    their weighted sum back to the combination.  That is satisfiable exactly
    when the value is below `2 ^ n`.  More digits than the field's capacity are
    refused, for their weighted sum could wrap around the modulus.

    `Num.ofBits` goes the other way.  `Num.assertLess` and
    `Num.assertLessOrEqual` split both operands and their difference into digits
    of one width: below the field's capacity, a difference that wrapped around
    the field has no decomposition of that width.

    | operation | constraints |
    |---|---|
    | `toBits` | n + 1 |
    | `ofBits` | 1 |
    | `assertLess`, `assertLessOrEqual` | 3n + 3 |
-/

namespace RankOne

variable {p : Nat} [Modulus p]

/-! ## Weighted sums -/

/-- The number with the given binary digits, least significant first. -/
def natOfBits : List Bool → Nat
  | [] => 0
  | b :: bs => b.toNat + 2 * natOfBits bs

/-- Adds to `acc` the terms of `xs` with coefficients that start at `coeff` and
    double. -/
def LinComb.addDoubling {α : Type} (term : Fp p → α → LinComb p) :
    LinComb p → Fp p → List α → LinComb p
  | acc, _, [] => acc
  | acc, coeff, x :: xs => addDoubling term (acc + term coeff x) coeff.double xs

/-- The bits as digits of one number, the first with weight `coeff`. -/
def Bit.weighted (coeff : Fp p) (bits : List Bit) : LinComb p :=
  LinComb.addDoubling Bit.lc 0 coeff bits

/-- The number whose digits are the bits, if all of them are known. -/
def Bit.natValue (bits : List Bit) : Option Nat := do
  return natOfBits (← bits.mapM Bit.value)

/-! ## Decomposition and recomposition -/

/-- The low `n` digits of a value, each a fresh variable. -/
def BitVar.allocDigits (value : Option (Fp p)) (n : Nat) :
    Build p SynthesisError (Vector BitVar n) :=
  Build.tabulate fun i =>
    Build.within s!"bit {i}" <| BitVar.alloc (value.map fun v => v.val.testBit i)

/-- The binary digits of a combination, which must be below `2 ^ n`. -/
def LinNum.toBits (x : LinNum p) (n : Nat) : Build p SynthesisError (Vector Bit n) := do
  if Fp.capacity p < n then
    throw .unsatisfiable
  let digits ← BitVar.allocDigits x.value n
  let bits := digits.map Bit.pos
  Build.enforce "recompose" (Bit.weighted 1 bits.toList) 1 x.comb
  return bits

namespace Num

/-- The binary digits of a number, which must be below `2 ^ n`. -/
def toBits (x : Num p) (n : Nat) : Build p SynthesisError (Vector Bit n) :=
  x.toLinNum.toBits n

/-- Enforces that a number is below `2 ^ n`. -/
def rangeCheck (x : Num p) (n : Nat) : Build p SynthesisError Unit := do
  let _ ← x.toBits n

/-- The number with the given binary digits, least significant first. -/
def ofBits (bits : List Bit) : Build p SynthesisError (Num p) := do
  let num ← Build.within "num" <| alloc ((Bit.natValue bits).map Fp.ofNat)
  Build.enforce "pack" (Bit.weighted 1 bits) 1 num.lc
  return num

/-! ## Comparison -/

/-- The difference `b - a - offset`, with its value where both are known. -/
def gap (a b : Num p) (offset : Fp p) : LinNum p where
  value := do return (← b.value) - (← a.value) - offset
  comb := b.lc - a.lc - .const offset

/-- Enforces that both numbers are below `2 ^ n` and that the first is less. -/
def assertLess (a b : Num p) (n : Nat) : Build p SynthesisError Unit := do
  Build.within "a range" <| a.rangeCheck n
  Build.within "b range" <| b.rangeCheck n
  let _ ← Build.within "b - a - 1" <| (gap a b 1).toBits n

/-- Enforces that both numbers are below `2 ^ n` and that the first is not
    greater. -/
def assertLessOrEqual (a b : Num p) (n : Nat) : Build p SynthesisError Unit := do
  Build.within "a range" <| a.rangeCheck n
  Build.within "b range" <| b.rangeCheck n
  let _ ← Build.within "b - a" <| (gap a b 0).toBits n

end Num

end RankOne
