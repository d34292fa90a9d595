import RankOne.Digits

/-!
# Masked assertions — assertions that bind only when enabled

    Each operand is passed through a selection first, so that a disabled
    assertion compares two constants which satisfy it.  The constraints are the
    same either way; only what satisfies them depends on `enabled`, which has to
    be constrained to zero or one elsewhere.
-/

namespace RankOne.Num

variable {p : Nat} [Modulus p]

/-- The operands where `enabled` is one, and the two defaults where it is
    zero. -/
def mask (enabled a b : Num p) (aDefault bDefault : Fp p) :
    Build p SynthesisError (Num p × Num p) := do
  let aDefault ← Build.within "a default" <| constant aDefault
  let bDefault ← Build.within "b default" <| constant bDefault
  let a ← Build.within "a" <| select enabled a aDefault
  let b ← Build.within "b" <| select enabled b bDefault
  return (a, b)

/-- Enforces, when enabled, that two numbers are equal. -/
def assertEqualIf (enabled a b : Num p) : Build p SynthesisError Unit := do
  let (a, b) ← Build.within "mask" <| mask enabled a b 0 0
  Build.within "eq" <| assertEqual a b

/-- Enforces, when enabled, that two numbers differ. -/
def assertDifferentIf (enabled a b : Num p) : Build p SynthesisError Unit := do
  let (a, b) ← Build.within "mask" <| mask enabled a b 0 1
  let value := do return (← a.value) - (← b.value)
  let diff ← Build.within "diff" <| alloc value
  Build.enforce "diff = a - b" (a.lc - b.lc) 1 diff.lc
  Build.within "ne" <| assertNonzero diff

/-- Enforces, when enabled, that two numbers below `2 ^ n` are in order and
    differ. -/
def assertLessIf (enabled a b : Num p) (n : Nat) : Build p SynthesisError Unit := do
  let (a, b) ← Build.within "mask" <| mask enabled a b 0 1
  Build.within "lt" <| assertLess a b n

/-- Enforces, when enabled, that two numbers below `2 ^ n` are in order. -/
def assertLessOrEqualIf (enabled a b : Num p) (n : Nat) : Build p SynthesisError Unit := do
  let (a, b) ← Build.within "mask" <| mask enabled a b 0 0
  Build.within "le" <| assertLessOrEqual a b n

end RankOne.Num
