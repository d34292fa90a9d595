import Mathlib.Logic.Function.Basic
import RankOne.Comparator
import RankOne.Division
import RankOne.Proofs.Sha256.Hashing

/-!
# Steps — sequences of calls, with registers for what they give

    A caller makes one call after another, and each takes its arguments from
    what earlier calls gave.  Here a sequence of calls is data, so that one and
    the same sequence can be made in two runs: a step names a gadget, the
    namespaces it is called in, the registers that its arguments are taken
    from, and the register that its result goes to.

    The kinds of values are the types that gadgets take and give.  A digest is
    held in a register and called in place; what a call has done to it stays
    when the call fails.  A step whose arguments are not there, mostly because
    the step that should have given them failed, is skipped.

    The values that allocations ask for are not part of the sequence.  They
    are supplied to a run beside it.
-/

namespace RankOne.Script

variable {p : Nat}

/-! ## Values and arguments -/

/-- The kinds of values that calls take and give. -/
inductive Kind where
  | unit
  | count
  | num
  | comb
  | lin
  | bit
  | bits (w : Nat)
  | digest
  | pair (k l : Kind)
  | list (k : Kind)
  | array (k : Kind) (n : Nat)
deriving DecidableEq

/-- The values of a kind. -/
@[reducible] def Kind.Val (p : Nat) : Kind → Type
  | .unit => Unit
  | .count => Nat
  | .num => Num p
  | .comb => LinComb p
  | .lin => LinNum p
  | .bit => Bit
  | .bits w => Bits w
  | .digest => Sha256.Digest
  | .pair k l => k.Val p × l.Val p
  | .list k => List (k.Val p)
  | .array k n => Vector (k.Val p) n

/-- What a register holds. -/
structure Entry (p : Nat) where
  kind : Kind
  val : kind.Val p

/-- The value, if it is of the kind asked for. -/
def Entry.as (k : Kind) (e : Entry p) : Option (k.Val p) :=
  if h : e.kind = k then some (h ▸ e.val) else none

/-- The registers. -/
abbrev Store (p : Nat) := Nat → Option (Entry p)

/-- The registers with a value in one of them. -/
def Store.keep (σ : Store p) (i : Nat) (e : Entry p) : Store p := Function.update σ i (some e)

/-- Arguments, put together from what registers hold. -/
inductive Arg : Kind → Type where
  | unit : Arg .unit
  | reg (k : Kind) (i : Nat) : Arg k
  | pair {k l : Kind} (s : Arg k) (t : Arg l) : Arg (.pair k l)
  | nil (k : Kind) : Arg (.list k)
  | cons {k : Kind} (s : Arg k) (t : Arg (.list k)) : Arg (.list k)
  | item {k : Kind} (t : Arg (.list k)) (i : Nat) : Arg k
  | array {k : Kind} (n : Nat) (t : Arg (.list k)) : Arg (.array k n)
  | list {k : Kind} {n : Nat} (t : Arg (.array k n)) : Arg (.list k)

/-- The arguments, if they are there. -/
def Arg.read (σ : Store p) {k : Kind} : Arg k → Option (k.Val p)
  | .unit => some ()
  | .reg k i => do (← σ i).as k
  | .pair s t => do return (← s.read σ, ← t.read σ)
  | .nil _ => some []
  | .cons s t => do return (← s.read σ) :: (← t.read σ)
  | .item t i => do (← t.read σ)[i]?
  | .array n t => do
    let xs ← t.read σ
    if h : xs.length = n then some ⟨xs.toArray, h⟩ else none
  | .list t => do return (← t.read σ).toList

/-! ## Gadgets -/

/-- Operations that take no circuit: `copy` gives the value itself a second
    time, `lc` an integer times a constant. -/
inductive Free (p : Nat) : Kind → Kind → Type where
  | copy {k : Kind} : Free p k k
  | bit (b : Bool) : Free p .unit .bit
  | notBit : Free p .bit .bit
  | constant {w : Nat} (v : UInt64) : Free p .unit (.bits w)
  | rotateRight {w : Nat} (k : Nat) : Free p (.bits w) (.bits w)
  | shiftRight {w : Nat} (k : UInt64) : Free p (.bits w) (.bits w)
  | not {w : Nat} : Free p (.bits w) (.bits w)
  | ofBits {w : Nat} : Free p (.array .bit w) (.bits w)
  | bitsOf {w : Nat} : Free p (.bits w) (.array .bit w)
  | ofBytesBE : Free p (.array (.bits 8) 4) (.bits 32)
  | toBytesBE : Free p (.bits 32) (.array (.bits 8) 4)
  | lc {w : Nat} (coeff : Fp p) : Free p (.bits w) .comb
  | const (c : Fp p) : Free p .unit .lin
  | toLinNum : Free p .num .lin
  | digest : Free p .unit .digest

/-- The gadgets, with the kinds of their arguments and results.  An allocation
    carries the number of the value that it asks for. -/
inductive Gadget (p : Nat) : Kind → Kind → Type where
  | free {k l : Kind} (f : Free p k l) : Gadget p k l
  | alloc (leaf : Nat) : Gadget p .unit .num
  | allocInput (leaf : Nat) : Gadget p .unit .num
  | allocBit (leaf : Nat) : Gadget p .unit .bit
  | allocBits (w leaf : Nat) : Gadget p .unit (.bits w)
  | constant (c : Fp p) : Gadget p .unit .num
  | add : Gadget p (.pair .num .num) .num
  | mul : Gadget p (.pair .num .num) .num
  | isZero : Gadget p .num .num
  | select : Gadget p (.pair .num (.pair .num .num)) .num
  | assertEqual : Gadget p (.pair .num .num) .unit
  | assertNonzero : Gadget p .num .unit
  | toBits (n : Nat) : Gadget p .num (.array .bit n)
  | ofBits : Gadget p (.list .bit) .num
  | assertLess (n : Nat) : Gadget p (.pair .num .num) .unit
  | assertLessOrEqual (n : Nat) : Gadget p (.pair .num .num) .unit
  | rangeCheck (n : Nat) : Gadget p .num .unit
  | assertEqualIf : Gadget p (.pair .num (.pair .num .num)) .unit
  | assertDifferentIf : Gadget p (.pair .num (.pair .num .num)) .unit
  | assertLessIf (n : Nat) : Gadget p (.pair .num (.pair .num .num)) .unit
  | assertLessOrEqualIf (n : Nat) : Gadget p (.pair .num (.pair .num .num)) .unit
  | isLess (cmp : Comparator) : Gadget p (.pair .num .num) .bit
  | assertIsLess (cmp : Comparator) : Gadget p (.pair .num .num) .unit
  | solve (h : Hint) : Gadget p (.list .num) (.list .num)
  | bind : Gadget p (.pair .num (.pair .num (.pair .num .num))) .unit
  | floorDiv : Gadget p (.pair .num .num) .num
  | enforceEqual : Gadget p (.pair .bit .bit) .unit
  | fromNum (w : Nat) : Gadget p .num (.bits w)
  | fromNums (w : Nat) : Gadget p (.list .num) (.bits w)
  | toNum {w : Nat} : Gadget p (.bits w) .num
  | xor {w : Nat} : Gadget p (.pair (.bits w) (.bits w)) (.bits w)
  | and {w : Nat} : Gadget p (.pair (.bits w) (.bits w)) (.bits w)
  | choose {w : Nat} : Gadget p (.pair (.bits w) (.pair (.bits w) (.bits w))) (.bits w)
  | majority {w : Nat} : Gadget p (.pair (.bits w) (.pair (.bits w) (.bits w))) (.bits w)
  | addMany {w : Nat} : Gadget p (.list (.bits w)) (.bits w)
  | sha256 : Gadget p (.pair .lin (.list .num)) .num

/-- Calls on a digest. -/
inductive DigestCall (p : Nat) : Kind → Kind → Type where
  | write : DigestCall p (.list (.bits 8)) .count
  | writeNums : DigestCall p (.list .num) .count
  | sumBytes : DigestCall p .lin (.array (.bits 8) 32)
  | sum : DigestCall p .lin .num
  | reset : DigestCall p .unit .unit

/-- The values that allocations ask for, by the numbers that they carry, and for
    integers by the width as well. -/
structure Supply (p : Nat) where
  num : Nat → Option (Fp p)
  bit : Nat → Option Bool
  bits : Nat → Nat → Option UInt64

variable [Modulus p]

/-- The result of an operation without a circuit. -/
def Free.apply {k l : Kind} : Free p k l → k.Val p → l.Val p
  | .copy, x => x
  | .bit b, _ => Bit.const b
  | .notBit, b => Bit.not b
  | .constant v, _ => Bits.constant v
  | .rotateRight k, x => Bits.rotateRight x k
  | .shiftRight k, x => Bits.shiftRight x k
  | .not, x => Bits.not x
  | .ofBits, bits => Bits.ofBits bits
  | .bitsOf, x => Bits.bits x
  | .ofBytesBE, bytes => Word.ofBytesBE bytes
  | .toBytesBE, x => Word.toBytesBE x
  | .lc coeff, x => Bits.lc x coeff
  | .const c, _ => LinNum.const c
  | .toLinNum, x => Num.toLinNum x
  | .digest, _ => Sha256.Digest.new

/-- The circuit of a gadget. -/
def Gadget.circuit (given : Supply p) {k l : Kind} :
    Gadget p k l → k.Val p → Build p GadgetError (l.Val p)
  | .free f, x => return f.apply x
  | .alloc leaf, _ => synthesis <| Num.alloc (given.num leaf)
  | .allocInput leaf, _ => synthesis <| Num.allocInput (given.num leaf)
  | .allocBit leaf, _ => synthesis <| Bit.pos <$> BitVar.alloc (given.bit leaf)
  | .allocBits w leaf, _ => synthesis <| Bits.alloc (given.bits w leaf)
  | .constant c, _ => synthesis <| Num.constant c
  | .add, (a, b) => synthesis <| Num.add a b
  | .mul, (a, b) => synthesis <| Num.mul a b
  | .isZero, x => synthesis <| Num.isZero x
  | .select, (cond, a, b) => synthesis <| Num.select cond a b
  | .assertEqual, (a, b) => Num.assertEqual a b
  | .assertNonzero, x => synthesis <| Num.assertNonzero x
  | .toBits n, x => synthesis <| Num.toBits x n
  | .ofBits, bits => synthesis <| Num.ofBits bits
  | .assertLess n, (a, b) => synthesis <| Num.assertLess a b n
  | .assertLessOrEqual n, (a, b) => synthesis <| Num.assertLessOrEqual a b n
  | .rangeCheck n, x => synthesis <| Num.rangeCheck x n
  | .assertEqualIf, (enabled, a, b) => synthesis <| Num.assertEqualIf enabled a b
  | .assertDifferentIf, (enabled, a, b) => synthesis <| Num.assertDifferentIf enabled a b
  | .assertLessIf n, (enabled, a, b) => synthesis <| Num.assertLessIf enabled a b n
  | .assertLessOrEqualIf n, (enabled, a, b) => synthesis <| Num.assertLessOrEqualIf enabled a b n
  | .isLess cmp, (a, b) => synthesis <| cmp.isLess a b
  | .assertIsLess cmp, (a, b) => synthesis <| cmp.assertIsLess a b
  | .solve h, xs => h.solve xs
  | .bind, (dividend, divisor, quotient, remainder) =>
    synthesis <| Division.bind dividend divisor quotient remainder
  | .floorDiv, (dividend, divisor) => Division.floorDiv dividend divisor
  | .enforceEqual, (a, b) => synthesis <| Bit.enforceEqual a b
  | .fromNum _, x => synthesis <| Bits.fromNum x
  | .fromNums _, xs => synthesis <| Bits.fromNums xs
  | .toNum, x => synthesis <| Bits.toNum x
  | .xor, (a, b) => synthesis <| Bits.xor a b
  | .and, (a, b) => synthesis <| Bits.and a b
  | .choose, (a, b, c) => synthesis <| Bits.choose a b c
  | .majority, (a, b, c) => synthesis <| Bits.majority a b c
  | .addMany, xs => synthesis <| Bits.addMany xs
  | .sha256, (ignore, data) => Sha256.sha256 ignore data
where
  synthesis {α : Type} (body : Build p SynthesisError α) : Build p GadgetError α :=
    Build.mapError SynthesisError.toGadgetError body

/-- The circuit of a call on a digest. -/
def DigestCall.circuit {k l : Kind} : DigestCall p k l → k.Val p → Sha256.Hashing p (l.Val p)
  | .write, bytes => Sha256.Digest.write bytes
  | .writeNums, xs => Sha256.Digest.writeNums xs
  | .sumBytes, ignore => Sha256.Digest.sumBytes ignore
  | .sum, ignore => Sha256.Digest.sum ignore
  | .reset, _ => Sha256.Hashing.change Sha256.Digest.reset

/-! ## Steps -/

/-- One call, of a gadget or of the digest in a register, in namespaces of its own. -/
inductive Step (p : Nat) where
  | call {k l : Kind} (path : List String) (g : Gadget p k l) (args : Arg k) (out : Nat)
  | hash {k l : Kind} (path : List String) (op : DigestCall p k l) (d : Nat) (args : Arg k)
    (out : Nat)

/-- The registers and the system between two steps. -/
structure Config (p : Nat) where
  store : Store p
  system : System p

/-- What comes of a step. -/
inductive Reply (p : Nat) where
  | done (e : Entry p)
  | failed (e : GadgetError)
  | skipped

/-- Empty registers, and a new system. -/
def Config.start : Config p := ⟨fun _ => none, .start⟩

/-- Makes the call. -/
def Step.run (mode : Mode) (given : Supply p) (c : Config p) : Step p → Reply p × Config p
  | .call path g args out =>
    match args.read c.store with
    | none => (.skipped, c)
    | some x =>
      match Build.inside path (g.circuit given x) mode c.system with
      | .ok a s => (.done ⟨_, a⟩, ⟨c.store.keep out ⟨_, a⟩, s⟩)
      | .error e s => (.failed e, ⟨c.store, s⟩)
  | .hash path op d args out =>
    match (Arg.pair (.reg .digest d) args).read c.store with
    | none => (.skipped, c)
    | some (digest, x) =>
      match Sha256.Hashing.inside path (op.circuit x) mode (digest, c.system) with
      | .ok a (digest, s) => (.done ⟨_, a⟩, ⟨(c.store.keep d ⟨.digest, digest⟩).keep out ⟨_, a⟩, s⟩)
      | .error e (digest, s) => (.failed e, ⟨c.store.keep d ⟨.digest, digest⟩, s⟩)

/-- What comes of each step, and what is there after it. -/
def trace (mode : Mode) (given : Supply p) : List (Step p) → Config p → List (Reply p × Config p)
  | [], _ => []
  | step :: rest, c => step.run mode given c :: trace mode given rest (step.run mode given c).2

end RankOne.Script
