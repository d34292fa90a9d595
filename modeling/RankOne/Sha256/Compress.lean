import RankOne.Bits
import RankOne.Sha256.Constants

/-!
# SHA-256 compression — one block absorbed into the running hash

    The block's sixteen words are extended to sixty-four, each word from the
    sixteen before it.  Then sixty-four rounds turn a copy of the running hash,
    one word each, and the result is added to the hash.  The two sums of a round
    are not formed apart: `Σ₀` and `Maj` are added straight into the register
    that they update.
-/

namespace RankOne.Sha256

variable {p : Nat} [Modulus p]

/-! ## Sigma functions -/

/-- The function `Σ₀`. -/
def bigSigma₀ (x : Word) : Build p SynthesisError Word := do
  let t ← Build.within "r2 xor r13" <| (x.rotateRight 2).xor (x.rotateRight 13)
  Build.within "xor r22" <| t.xor (x.rotateRight 22)

/-- The function `Σ₁`. -/
def bigSigma₁ (x : Word) : Build p SynthesisError Word := do
  let t ← Build.within "r6 xor r11" <| (x.rotateRight 6).xor (x.rotateRight 11)
  Build.within "xor r25" <| t.xor (x.rotateRight 25)

/-- The function `σ₀`. -/
def smallSigma₀ (x : Word) : Build p SynthesisError Word := do
  let t ← Build.within "r7 xor r18" <| (x.rotateRight 7).xor (x.rotateRight 18)
  Build.within "xor s3" <| t.xor (x.shiftRight 3)

/-- The function `σ₁`. -/
def smallSigma₁ (x : Word) : Build p SynthesisError Word := do
  let t ← Build.within "r17 xor r19" <| (x.rotateRight 17).xor (x.rotateRight 19)
  Build.within "xor s10" <| t.xor (x.shiftRight 10)

/-! ## Message schedule -/

/-- Word number `i` of the schedule, from the sixteen words before it, oldest
    first. -/
def nextWord (i : Nat) (recent : Vector Word 16) : Build p SynthesisError Word := do
  let s1 ← Build.within s!"w{i} s1" <| smallSigma₁ recent[14]
  let s0 ← Build.within s!"w{i} s0" <| smallSigma₀ recent[1]
  Build.within s!"w{i}" <| Bits.addMany [s1, recent[9], s0, recent[0]]

/-- The next `n` words of the schedule, the first of which is number `i`. -/
def extend : Nat → Nat → Vector Word 16 → Build p SynthesisError (List Word)
  | 0, _, _ => return []
  | n + 1, i, recent => do
    let w ← nextWord i recent
    let later ← extend n (i + 1) (recent.tail.push w)
    return w :: later

/-- The sixteen words of a block. -/
def wordsOf (block : Vector Byte 64) : Vector Word 16 :=
  .ofFn fun i => Word.ofBytesBE #v[
    block[4 * i.val], block[4 * i.val + 1], block[4 * i.val + 2], block[4 * i.val + 3]]

/-- The sixty-four words of the schedule. -/
def schedule (block : Vector Byte 64) : Build p SynthesisError (List Word) := do
  let later ← extend 48 16 (wordsOf block)
  return (wordsOf block).toList ++ later

/-! ## Rounds -/

/-- Round number `i`, with its constant and its word of the schedule. -/
def round (i : Nat) (k : BitVec 32) (w : Word) (r : Vector Word 8) :
    Build p SynthesisError (Vector Word 8) := do
  let sigma1 ← Build.within s!"r{i} sigma1" <| bigSigma₁ r[4]
  let ch ← Build.within s!"r{i} ch" <| Bits.choose r[4] r[5] r[6]
  let t1 ← Build.within s!"r{i} t1" <| Bits.addMany [r[7], sigma1, ch, .constant (Bits.cell k), w]
  let sigma0 ← Build.within s!"r{i} sigma0" <| bigSigma₀ r[0]
  let maj ← Build.within s!"r{i} maj" <| Bits.majority r[0] r[1] r[2]
  let e ← Build.within s!"r{i} e" <| Bits.addMany [r[3], t1]
  let a ← Build.within s!"r{i} a" <| Bits.addMany [t1, sigma0, maj]
  return #v[a, r[0], r[1], r[2], e, r[4], r[5], r[6]]

/-- The rounds for the given constants and words, from round `i` on. -/
def rounds : Nat → List (BitVec 32 × Word) → Vector Word 8 →
    Build p SynthesisError (Vector Word 8)
  | _, [], r => return r
  | i, (k, w) :: rest, r => do
    let r ← round i k w r
    rounds (i + 1) rest r

/-- The running hash after one more block. -/
def compress (hash : Vector Word 8) (block : Vector Byte 64) :
    Build p SynthesisError (Vector Word 8) := do
  let words ← schedule block
  let r ← rounds 0 (roundConstants.zip words) hash
  Build.tabulate fun i : Fin 8 => Build.within s!"h{i}" <| Bits.addMany [hash[i], r[i]]

end RankOne.Sha256
