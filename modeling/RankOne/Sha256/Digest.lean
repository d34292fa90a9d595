import RankOne.Error
import RankOne.Sha256.Compress

/-!
# SHA-256 digests — hashing a stream of bytes

    A digest takes bytes as they come and absorbs every full block at once.  Its
    sum pads the message, appends the length in bits, and gives the hash as
    bytes or as one number.  The length that is appended is that of the message
    less a number of bytes to ignore, which may be a variable; the blocks are
    always those of the bytes that were written.

    A digest is finalized by its sum and refuses every use until it is reset.
    Each operation takes the next operation number for the names that it needs;
    the number goes on through a reset, so that a digest never gives the same
    path twice.
-/

namespace RankOne.Sha256

/-- Where a digest is in its life: nothing has been written, bytes are being
    written, or the sum has been taken. -/
inductive Stage where
  | fresh
  | streaming
  | finalized
deriving DecidableEq

/-- A hash in progress: the hash of the blocks that are complete, the bytes of
    the block that is not, the number of bytes written, and the next operation
    number. -/
structure Digest where
  hash : Vector Word 8
  pending : Array Byte
  length : Nat
  stage : Stage
  ops : Nat

/-- A circuit that works on a digest.  What it has done to the digest stays when
    it fails. -/
abbrev Hashing (p : Nat) := ReaderT Mode (EStateM GadgetError (Digest × System p))

variable {p : Nat} {α : Type}

namespace Hashing

/-- A circuit that leaves the digest alone. -/
def lift (body : Build p SynthesisError α) : Hashing p α := fun mode (d, s) =>
  match body mode s with
  | .ok a s => .ok a (d, s)
  | .error e s => .error e.toGadgetError (d, s)

/-- Runs `body` in a namespace, which is closed again whether `body` fails or
    not. -/
def within (name : String) (body : Hashing p α) : Hashing p α := fun mode (d, s) =>
  match body mode (d, Build.recording mode (·.enter name) s) with
  | .ok a (d, s) => .ok a (d, Build.recording mode (·.leave) s)
  | .error e (d, s) => .error e (d, Build.recording mode (·.leave) s)

/-- The digest as it is. -/
def digest : Hashing p Digest := fun _ (d, s) => .ok d (d, s)

/-- Changes the digest. -/
def change (f : Digest → Digest) : Hashing p Unit := fun _ (d, s) => .ok () (f d, s)

/-- Runs on a digest which is given up afterwards. -/
def run (d : Digest) (body : Hashing p α) : Build p GadgetError α := fun mode s =>
  match body mode (d, s) with
  | .ok a (_, s) => .ok a s
  | .error e (_, s) => .error e s

end Hashing

namespace Digest

/-- The hash of no blocks, as constants of the circuit. -/
def startHash : Vector Word 8 := initialHash.map fun v => .constant (Bits.cell v)

/-- A digest of nothing, which takes operation numbers from `ops` on. -/
def startAt (ops : Nat) : Digest := ⟨startHash, #[], 0, .fresh, ops⟩

/-- A new digest. -/
def new : Digest := startAt 0

/-- The digest of nothing again.  Operation numbers go on. -/
def reset (d : Digest) : Digest := startAt d.ops

/-- Nothing has been written. -/
def isEmpty (d : Digest) : Bool := d.length = 0

/-- Takes an operation number. -/
def nextOp : Hashing p Nat := do
  let op := (← Hashing.digest).ops
  Hashing.change fun d => { d with ops := op + 1 }
  return op

/-- Fails when the sum has been taken. -/
def ensureOpen : Hashing p Unit := do
  if (← Hashing.digest).stage = .finalized then
    throw .digestFinalized

variable [Modulus p]

/-! ## Writing -/

/-- Absorbs the pending bytes when they fill a block. -/
def absorbFull : Hashing p Unit := do
  let d ← Hashing.digest
  if full : d.pending.size = 64 then
    let op ← nextOp
    Hashing.change fun d => { d with pending := #[] }
    let hash ← Hashing.within s!"block {op}" <| Hashing.lift (compress d.hash ⟨d.pending, full⟩)
    Hashing.change fun d => { d with hash }

/-- Absorbs bytes one by one. -/
def absorb : List Byte → Hashing p Unit
  | [] => return ()
  | b :: rest => do
    Hashing.change fun d => { d with pending := d.pending.push b }
    absorbFull
    absorb rest

/-- Writes bytes; gives their number. -/
def write (bytes : List Byte) : Hashing p Nat := do
  ensureOpen
  Hashing.change fun d => { d with stage := .streaming, length := d.length + bytes.length }
  absorb bytes
  return bytes.length

/-- The bytes that numbers stand for, each of which must be below 256. -/
def bytesOf (op : Nat) (xs : List (Num p)) : Build p SynthesisError (List Byte) :=
  xs.zipIdx.mapM fun (x, i) => Build.within s!"bytes {op} {i}" <| Bits.fromNum x

/-- Writes numbers as bytes; gives their number. -/
def writeNums (xs : List (Num p)) : Hashing p Nat := do
  ensureOpen
  let op ← nextOp
  let bytes ← Hashing.lift (bytesOf op xs)
  write bytes

/-! ## Sums -/

/-- The bytes between a message of `length` bytes and its length: a one bit,
    then zeros up to eight bytes before the end of a block. -/
def padding (length : Nat) : List Byte :=
  let rem := length % blockSize
  let zeros := (if rem < 56 then 56 - rem else blockSize + 56 - rem) - 1
  .constant 0x80 :: List.replicate zeros (.constant 0)

/-- The length in bits of a message of `length` bytes, less the bytes to
    ignore. -/
def lengthField (length : Nat) (ignore : LinNum p) : LinNum p where
  value := ignore.value.map fun v => (Fp.ofNat length - v) * Fp.ofNat 8
  comb := .const (Fp.ofNat length * Fp.ofNat 8) + ignore.lc (-Fp.ofNat 8)

/-- The eight bytes of a length, most significant first. -/
def lengthBytes (bits : Vector Bit 64) : List Byte :=
  List.ofFn fun j : Fin 8 => .ofBits (.ofFn fun i => bits[(7 - j.val) * 8 + i.val])

/-- The bytes of a hash, most significant first. -/
def hashBytes (hash : Vector Word 8) : Vector Byte digestSize :=
  .ofFn fun i : Fin 32 => (hash[i.val / 4]).toBytesBE[i.val % 4]

/-- Finalizes the digest; gives the hash as bytes. -/
def sumBytes (ignore : LinNum p) : Hashing p (Vector Byte digestSize) := do
  ensureOpen
  let op ← nextOp
  let length := (← Hashing.digest).length
  let _ ← Hashing.within s!"padding {op}" <| write (padding length)
  let bits ← Hashing.within s!"length {op}" <|
    Hashing.lift ((lengthField length ignore).toBits 64)
  let _ ← Hashing.within s!"length bytes {op}" <| write (lengthBytes bits)
  let pending := (← Hashing.digest).pending.size
  if pending ≠ 0 then
    throw (.paddingInvariant pending)
  Hashing.change fun d => { d with stage := .finalized }
  return hashBytes (← Hashing.digest).hash

/-- Finalizes the digest; gives the hash as one number, the first byte most
    significant. -/
def sum (ignore : LinNum p) : Hashing p (Num p) := do
  let bytes ← sumBytes ignore
  let op ← nextOp
  let bits := bytes.toList.reverse.flatMap (·.bits.toList)
  Hashing.within s!"pack {op}" <| Hashing.lift (Num.ofBits bits)

end Digest

variable [Modulus p]

/-- The hash of numbers that stand for bytes, as one number. -/
def sha256 (ignore : LinNum p) (data : List (Num p)) : Build p GadgetError (Num p) :=
  Hashing.run .new do
    let _ ← Hashing.within "write" <| Digest.writeNums data
    Hashing.within "sum" <| Digest.sum ignore

end RankOne.Sha256
