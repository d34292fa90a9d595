import RankOne.Hint
import RankOne.Masked

/-!
# Floor division — quotients that are bound by constraints

    Quotient and remainder come from a hint.  What binds them depends on the
    divisor:

    | divisor | enforced |
    |---|---|
    | zero | the quotient is zero |
    | not zero | `quotient * divisor + remainder = dividend`, `remainder < divisor`, `quotient < 2 ^ 160` |

    Every constraint is there in both cases, and masked in the one that it is
    not meant for.  With divisors of 64 digits and quotients of 160, the product
    and the sum stay below `2 ^ 224`: over a field of a larger order the
    identity holds in the integers and not only modulo the order.
-/

namespace RankOne.Division

variable {p : Nat} [Modulus p]

/-- The number of digits of a quotient. -/
def quotientBits : Nat := 160

/-- The number of digits of a divisor, and so of a remainder. -/
def divisorBits : Nat := 64

/-- Computes quotient and remainder; a division by zero gives zero for both. -/
def hint : Hint where
  name := "integer division"
  numOutputs := 2
  compute
    | [dividend, divisor] =>
      if dividend < 0 ∨ divisor < 0 then .error .negativeOperand
      else if 1 <<< divisorBits ≤ divisor.toNat then
        .error (.divisorOutOfRange (toString divisor))
      else if divisor = 0 then .ok [0, 0]
      else .ok [dividend / divisor, dividend % divisor]
    | inputs => .error (.invalidArity "integer division" 2 inputs.length)

/-- Constrains `quotient` and `remainder` to be the floor division of `dividend`
    by `divisor`. -/
def bind (dividend divisor quotient remainder : Num p) : Build p SynthesisError Unit := do
  let zero ← Build.within "zero" <| Num.constant 0
  let isZero ← Build.within "divisor is zero" divisor.isZero
  let isNonzero ← Build.within "divisor nonzero" isZero.isZero
  Build.within "zero divisor gives zero quotient" <| Num.assertEqualIf isZero quotient zero
  let product ← Build.within "quotient * divisor" <| quotient.mul divisor
  let recomposed ← Build.within "product + remainder" <| product.add remainder
  Build.within "division identity" <| Num.assertEqualIf isNonzero recomposed dividend
  Build.within "remainder < divisor" <| Num.assertLessIf isNonzero remainder divisor divisorBits
  let bound ← Build.within "quotient bound" <| Num.constant (Fp.pow2 quotientBits)
  Build.within "quotient < bound" <| Num.assertLessIf isNonzero quotient bound (quotientBits + 1)

/-- The quotient of a floor division, or zero where the divisor is zero.  A
    divisor of more than 64 digits is an error; a quotient of more than 160
    leaves the system unsatisfied. -/
def floorDiv (dividend divisor : Num p) : Build p GadgetError (Num p) := do
  match ← Build.within "hint" <| hint.solve [dividend, divisor] with
  | [quotient, remainder] =>
    Build.within "bind" <| bind dividend divisor quotient remainder
    return quotient
  | outputs => throw (.hint (.invalidArity hint.name hint.numOutputs outputs.length))

end RankOne.Division
