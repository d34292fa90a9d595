import RankOne.Digits

/-!
# Bounded comparison — order of numbers that are not far apart

    A comparator for `bits` digits decides the order of two numbers whose
    difference is below `2 ^ bits` in absolute value.  It shifts the difference
    by `2 ^ bits`, so that the top one of `bits + 1` digits tells its sign.
    Operands that are further apart leave the system unsatisfied, save those
    whose difference the shift brings back into range.
-/

namespace RankOne

variable {p : Nat} [Modulus p]

/-- Compares numbers whose difference is below `2 ^ bits` in absolute value. -/
structure Comparator where
  bits : Nat
deriving DecidableEq

namespace Comparator

/-- The difference `a - b`, shifted by the bound. -/
def shifted (cmp : Comparator) (a b : Num p) : LinNum p where
  value := do return Fp.pow2 cmp.bits + (← a.value) - (← b.value)
  comb := .const (Fp.pow2 cmp.bits) + a.lc - b.lc

/-- Whether the first number is less than the second. -/
def isLess (cmp : Comparator) (a b : Num p) : Build p SynthesisError Bit := do
  let digits ← (cmp.shifted a b).toBits (cmp.bits + 1)
  return digits.back.not

/-- Enforces that the first number is less than the second. -/
def assertIsLess (cmp : Comparator) (a b : Num p) : Build p SynthesisError Unit := do
  let _ ← (Num.gap a b 1).toBits cmp.bits

end Comparator

end RankOne
