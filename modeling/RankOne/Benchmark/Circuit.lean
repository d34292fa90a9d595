import RankOne.Comparator
import RankOne.Division
import RankOne.Sha256.Digest

/-!
# Benchmark circuits — fixed mixes of gadgets

    Each circuit repeats gadgets on two private inputs `x` and `y`, meant to
    satisfy `y < x < 2 ^ 160`.  How often is part of the circuit, so that it can
    be built at full or at reduced scale.

    | circuit | mix |
    |---|---|
    | `PreBlock` | comparisons, floor divisions, range checks |
    | `TxLoop` | comparisons, range checks, floor divisions, decompositions |
    | `VerifyBlock` | hashes of 242 bytes, decompositions, comparisons, floor divisions |
-/

namespace RankOne.Benchmark

variable {p : Nat}

/-- The digits of the comparator's bound and of the range checks. -/
def boundBits : Nat := Division.quotientBits

/-- The number of bytes that are hashed. -/
def hashedBytes : Nat := 242

/-! ## Gadget loops -/

section Loops

variable [Modulus p]

/-- The inputs that every benchmark runs on, `2 ^ 160 - 1` and `2 ^ 60 - 1`. -/
def inputs : Fp p × Fp p := (Fp.pow2 boundBits - 1, Fp.ofNat 0xFFFFFFFFFFFFFFF)

/-- Allocates the two inputs. -/
def allocInputs (x y : Fp p) : Build p GadgetError (Num p × Num p) := do
  let x ← Build.within "x" <| Num.alloc (some x)
  let y ← Build.within "y" <| Num.alloc (some y)
  return (x, y)

/-- Repeats a part of a circuit for the numbers from zero on. -/
def times (count : Nat) (body : Nat → Build p GadgetError Unit) : Build p GadgetError Unit :=
  (List.range count).forM body

/-- Asserts `count` times that the order `y < x` is found. -/
def comparisons (x y : Num p) (count : Nat) : Build p GadgetError Unit :=
  times count fun i => do
    let less ← Build.within s!"is_less {i}" <| Comparator.isLess ⟨boundBits⟩ y x
    Build.within s!"is_less {i} holds" <| Bit.enforceEqual (p := p) less (.const true)

/-- Asserts `count` times that `y < x`. -/
def assertedComparisons (x y : Num p) (count : Nat) : Build p GadgetError Unit :=
  times count fun i =>
    Build.within s!"assert_is_less {i}" <| Comparator.assertIsLess ⟨boundBits⟩ y x

/-- Divides `x` by `y`, `count` times. -/
def divisions (x y : Num p) (count : Nat) : Build p GadgetError Unit :=
  times count fun i => do
    let _ ← Build.within s!"floor_div {i}" <| Division.floorDiv x y

/-- Checks the range of `x`, `count` times. -/
def rangeChecks (x : Num p) (count : Nat) : Build p GadgetError Unit :=
  times count fun i => Build.within s!"range_check {i}" <| x.rangeCheck boundBits

/-- Decompositions of `x` in a row, of which the last is kept; without any,
    `bits` are kept. -/
def decompose (x : Num p) : Nat → Nat → List Bit → Build p GadgetError (List Bit)
  | 0, _, bits => return bits
  | n + 1, i, _ => do
    let bits ← Build.within s!"to_binary {i}" <| x.toBits (Fp.capacity p)
    decompose x n (i + 1) bits.toList

/-- Splits `x` into bits, `decompositions` times, and puts the last bits
    together again, `recompositions` times.  Where there are no bits to put
    together, `x` is split once. -/
def bitRoundTrips (x : Num p) (bits : List Bit) (decompositions recompositions : Nat) :
    Build p GadgetError Unit := do
  let needed := if bits.isEmpty && 0 < recompositions then 1 else 0
  let bits ← decompose x (max decompositions needed) 0 bits
  times recompositions fun i => do
    let packed ← Build.within s!"from_binary {i}" <| Num.ofBits (p := p) bits
    Build.within s!"from_binary {i} matches" <| x.assertEqual packed

end Loops

/-! ## Circuits -/

/-- Comparisons, floor divisions and range checks, each as often as its count
    says.  The greater operand and dividend is `x`, the lesser and divisor `y`;
    `isLess` counts comparisons whose result is asserted, `assertIsLess`
    asserted comparisons. -/
structure PreBlock (p : Nat) where
  x : Fp p
  y : Fp p
  isLess : Nat := 1280
  assertIsLess : Nat := 1024
  floorDiv : Nat := 256
  rangeChecks : Nat := 256
deriving DecidableEq

/-- Comparisons, range checks, floor divisions and decompositions into bits,
    with recompositions from bits; operands and counts are those of
    `PreBlock`. -/
structure TxLoop (p : Nat) where
  x : Fp p
  y : Fp p
  isLess : Nat := 49
  assertIsLess : Nat := 19
  rangeChecks : Nat := 6
  floorDiv : Nat := 13
  decompositions : Nat := 65
  recompositions : Nat := 236
deriving DecidableEq

/-- Hashes of the bits of `x`, decompositions, recompositions, comparisons and
    floor divisions; operands and counts are those of `PreBlock`. -/
structure VerifyBlock (p : Nat) where
  x : Fp p
  y : Fp p
  hashes : Nat := 2
  decompositions : Nat := 84
  recompositions : Nat := 484
  isLess : Nat := 3
  assertIsLess : Nat := 1
  floorDiv : Nat := 13
deriving DecidableEq

section Synthesis

variable [Modulus p]

/-- Builds the circuit. -/
def PreBlock.synthesize (c : PreBlock p) : Build p GadgetError Unit := do
  let (x, y) ← allocInputs c.x c.y
  comparisons x y c.isLess
  assertedComparisons x y c.assertIsLess
  divisions x y c.floorDiv
  Benchmark.rangeChecks x c.rangeChecks

/-- Builds the circuit. -/
def TxLoop.synthesize (c : TxLoop p) : Build p GadgetError Unit := do
  let (x, y) ← allocInputs c.x c.y
  comparisons x y c.isLess
  assertedComparisons x y c.assertIsLess
  Benchmark.rangeChecks x c.rangeChecks
  divisions x y c.floorDiv
  bitRoundTrips x [] c.decompositions c.recompositions

/-- The message that is hashed: one byte for each bit, then zero bytes. -/
def messageOf (bits : List Bit) : Build p GadgetError (List (Num p)) :=
  (List.range hashedBytes).mapM fun i =>
    Build.within s!"message byte {i}" <| Num.ofBits (p := p) [bits.getD i (.const false)]

/-- Builds the circuit. -/
def VerifyBlock.synthesize (c : VerifyBlock p) : Build p GadgetError Unit := do
  let (x, y) ← allocInputs c.x c.y
  let bits ← Build.within "x bits" <| x.toBits (Fp.capacity p)
  let bits := bits.toList
  let packed ← Build.within "x packed" <| Num.ofBits (p := p) bits
  Build.within "x packed matches" <| x.assertEqual packed
  let message ← messageOf bits
  times c.hashes fun i => do
    let _ ← Build.within s!"commitment {i}" <| Sha256.sha256 (.const 0) message
  bitRoundTrips x bits c.decompositions c.recompositions
  comparisons x y c.isLess
  assertedComparisons x y c.assertIsLess
  divisions x y c.floorDiv

end Synthesis

/-- A benchmark circuit. -/
inductive Circuit (p : Nat) where
  | preBlock (c : PreBlock p)
  | txLoop (c : TxLoop p)
  | verifyBlock (c : VerifyBlock p)
deriving DecidableEq

namespace Circuit

/-- The name in reports and on the command line. -/
def name : Circuit p → String
  | .preBlock _ => "pre-block"
  | .txLoop _ => "tx-loop"
  | .verifyBlock _ => "verify-block"

variable [Modulus p]

/-- Builds the circuit. -/
def synthesize : Circuit p → Build p GadgetError Unit
  | .preBlock c => c.synthesize
  | .txLoop c => c.synthesize
  | .verifyBlock c => c.synthesize

/-- The rows of the circuit, for any values. -/
def compile (c : Circuit p) : Except GadgetError (Shape p) :=
  match Build.start .compiling c.synthesize with
  | .ok _ s => s.finish
  | .error e _ => .error e

/-- The values of the circuit's variables. -/
def solve (c : Circuit p) : Except GadgetError (Witness p) :=
  match Build.start .solving c.synthesize with
  | .ok _ s => .ok s.witness
  | .error e _ => .error e

end Circuit

end RankOne.Benchmark
