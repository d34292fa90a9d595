import RankOne.Digits

/-!
# Bit vectors — integers of a fixed width, bit by bit

    A vector of width `w`, which is at most 64, carries its width in its type,
    so that a byte never stands where a word is expected.  Bits are stored
    least significant first.  Beside the bits, a vector caches the integer that
    they encode, where that is known, in a machine word of 64 bits.  The two
    are computed apart, the bits by gates and the cache by arithmetic on
    machine words, which drops what the width has no room for by a mask.

    The arithmetic of machine words wraps around, that on the place of a bit
    under a shift included: a shift by `k` brings to place `i` the bit at
    `i + k` modulo `2 ^ 64`.

    | operation | constraints |
    |---|---|
    | `constant`, `rotateRight`, `shiftRight`, `not`, `ofBytesBE`, `toBytesBE` | none |
    | `fromNum` | w + 1 |
    | `toNum` | 1 |
    | `xor`, `and`, `choose`, `majority` | those of the gates |
    | `addMany` | digits of the largest sum + 1 |
-/

namespace RankOne

variable {p : Nat} [Modulus p]

/-- An unsigned integer of `w` bits, least significant first, with its value
    where that is known. -/
structure Bits (w : Nat) where
  bits : Vector Bit w
  value : Option UInt64
deriving DecidableEq

/-- An integer of 8 bits. -/
abbrev Byte := Bits 8

/-- An integer of 32 bits. -/
abbrev Word := Bits 32

namespace Bits

variable {w : Nat}

/-! ## Machine words -/

/-- The bits of a machine word that an integer of `w` bits uses. -/
def mask (w : Nat) : UInt64 := if 64 ≤ w then 0xffffffffffffffff else 1 <<< UInt64.ofNat w - 1

/-- Bit `i` of a machine word, where places go round after 64. -/
def isSet (v : UInt64) (i : Nat) : Bool := (v >>> .ofNat i) &&& 1 == 1

/-- An integer of `w` bits as a machine word. -/
def cell (v : BitVec w) : UInt64 := .ofNat v.toNat

/-- The machine word with the given digits, least significant first.  Digits
    are shifted in from the most significant on, and past 64 they fall out. -/
def wordOfBits (bs : List Bool) : UInt64 :=
  bs.foldr (fun b acc => if b then acc <<< 1 ||| 1 else acc <<< 1) 0

/-! ## Integers from bits -/

/-- The integer with the given bits, least significant first. -/
def ofBits (bits : Vector Bit w) : Bits w := ⟨bits, (bits.toList.mapM Bit.value).map wordOfBits⟩

/-- A constant; the bits of `v` past the width are dropped. -/
def constant (v : UInt64) : Bits w :=
  ⟨.ofFn fun i => .const (isSet (v &&& mask w) i), some (v &&& mask w)⟩

instance : Inhabited (Bits w) := ⟨constant 0⟩

/-! ## Integers and numbers -/

/-- Allocates an integer bit by bit; the bits of the value past the width are
    dropped. -/
def alloc (value : Option UInt64) : Build p SynthesisError (Bits w) := do
  let bits ← Build.tabulate fun i : Fin w =>
    Build.within s!"b{i}" <| BitVar.alloc (value.map (isSet · i))
  return ⟨bits.map .pos, value.map (· &&& mask w)⟩

/-- The integer that a number stands for, which must be below `2 ^ w`. -/
def fromNum (x : Num p) : Build p SynthesisError (Bits w) :=
  return ofBits (← x.toBits w)

/-- Numbers that hold zero or one, least significant first, as digits of one
    number. -/
def digitSum (xs : List (Num p)) : LinNum p where
  value := do
    return (← xs.mapM (·.value)).foldr (fun v acc => v + acc.double) 0
  comb := LinComb.addDoubling (fun c x => .single c x.var) 0 1 xs

/-- The integer whose digits are the given numbers, least significant first.
    Each of them has to be constrained to zero or one elsewhere. -/
def fromNums (xs : List (Num p)) : Build p SynthesisError (Bits w) :=
  return ofBits (← Build.within "decompose" <| (digitSum xs).toBits w)

/-- The integer as one number. -/
def toNum (x : Bits w) : Build p SynthesisError (Num p) := Num.ofBits x.bits.toList

/-- The integer times `coeff`, as a linear combination. -/
def lc (x : Bits w) (coeff : Fp p) : LinComb p := Bit.weighted coeff x.bits.toList

/-! ## Operations without constraints -/

/-- Rotation to the right. -/
def rotateRight (x : Bits w) (k : Nat) : Bits w :=
  ⟨.ofFn fun i => x.bits.get ⟨(i.val + k % w) % w, Nat.mod_lt _ (Nat.zero_lt_of_lt i.isLt)⟩,
    x.value.map fun v => (v >>> .ofNat (k % w) ||| v <<< .ofNat ((w - k % w) % w)) &&& mask w⟩

/-- Shift to the right; zeros come in.  The place that a bit is taken from is a
    machine word. -/
def shiftRight (x : Bits w) (k : UInt64) : Bits w :=
  ⟨.ofFn fun i => x.bits[(UInt64.ofNat i + k).toNat]?.getD (.const false),
    x.value.map fun v => if w ≤ k.toNat then 0 else v >>> k⟩

/-- Bitwise negation. -/
def not (x : Bits w) : Bits w :=
  ⟨x.bits.map Bit.not, x.value.map fun v => ~~~v &&& mask w⟩

/-! ## Gates, bit by bit -/

/-- A gate on two integers, bit by bit. -/
def bitwise (gate : Bit → Bit → Build p SynthesisError Bit)
    (onValues : UInt64 → UInt64 → UInt64) (a b : Bits w) :
    Build p SynthesisError (Bits w) := do
  let bits ← Build.tabulate fun i : Fin w => Build.within s!"b{i}" <| gate a.bits[i] b.bits[i]
  return ⟨bits, do return onValues (← a.value) (← b.value)⟩

/-- A gate on three integers, bit by bit. -/
def bitwise₃ (gate : Bit → Bit → Bit → Build p SynthesisError Bit)
    (onValues : UInt64 → UInt64 → UInt64 → UInt64) (a b c : Bits w) :
    Build p SynthesisError (Bits w) := do
  let bits ← Build.tabulate fun i : Fin w =>
    Build.within s!"b{i}" <| gate a.bits[i] b.bits[i] c.bits[i]
  return ⟨bits, do return onValues (← a.value) (← b.value) (← c.value)⟩

/-- Bitwise exclusive or. -/
def xor : Bits w → Bits w → Build p SynthesisError (Bits w) := bitwise Bit.xor (· ^^^ ·)

/-- Bitwise conjunction. -/
def and : Bits w → Bits w → Build p SynthesisError (Bits w) := bitwise Bit.and (· &&& ·)

/-- Bitwise choice: the bit of `b` where the bit of `a` is set, and that of `c`
    where it is not. -/
def choose : Bits w → Bits w → Bits w → Build p SynthesisError (Bits w) :=
  bitwise₃ Bit.choose fun a b c => (a &&& b) ^^^ (~~~a &&& c &&& mask w)

/-- Bitwise majority. -/
def majority : Bits w → Bits w → Bits w → Build p SynthesisError (Bits w) :=
  bitwise₃ Bit.majority fun a b c => (a &&& b) ^^^ (a &&& c) ^^^ (b &&& c)

/-! ## Addition -/

/-- The number of digits of the largest sum of `n` integers. -/
def sumWidth (w n : Nat) : Nat :=
  if n * (mask w).toNat = 0 then 0 else (n * (mask w).toNat).log2 + 1

/-- The sum of the integers as one combination. -/
def sum (xs : List (Bits w)) : LinNum p where
  value := do
    return Fp.ofNat ((← xs.mapM (·.value)).foldl (fun n v => n + v.toNat) 0)
  comb := xs.foldl (fun acc x => acc + x.lc 1) 0

/-- The sum modulo `2 ^ w`: the operands are added as one combination, which is
    split into as many digits as the largest sum needs, and those above `w` are
    dropped.  The sum of none is a constant. -/
def addMany (xs : List (Bits w)) : Build p SynthesisError (Bits w) := do
  if xs.isEmpty then
    return constant 0
  let digits ← Build.within "sum" <| (sum xs).toBits (sumWidth w xs.length)
  return ofBits (.ofFn fun i => digits[i.val]?.getD (.const false))

end Bits

/-! ## Bytes of a word -/

namespace Word

/-- The word with the given bytes, most significant first. -/
def ofBytesBE (bytes : Vector Byte 4) : Word :=
  .ofBits (.ofFn fun i => bytes[3 - i.val / 8].bits[i.val % 8])

/-- The bytes of a word, most significant first. -/
def toBytesBE (x : Word) : Vector Byte 4 :=
  .ofFn fun j => .ofBits (.ofFn fun i => x.bits[(3 - j.val) * 8 + i.val])

end Word

end RankOne
