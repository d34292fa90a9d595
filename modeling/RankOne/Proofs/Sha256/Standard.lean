import Mathlib.Algebra.Ring.Nat
import Mathlib.Data.List.GetD
import RankOne.Sha256.Constants

/-!
# The standard — SHA-256 on bit vectors

    The hash function as FIPS 180-4 defines it, on plain words and bytes and
    without a circuit: the six functions, the message schedule, the rounds,
    the chain over the blocks of a message, and the padding.

    The constants are derived from the primes here, and the tables that the
    circuits use are shown to be these.  The length that ends the padding is a
    parameter of its own, since a circuit may leave bytes out of it.
-/

namespace RankOne.Sha256.Standard

/-! ## Functions and constants -/

/-- Choice. -/
def ch (x y z : BitVec 32) : BitVec 32 := (x &&& y) ^^^ (~~~x &&& z)

/-- Majority. -/
def maj (x y z : BitVec 32) : BitVec 32 := (x &&& y) ^^^ (x &&& z) ^^^ (y &&& z)

/-- The function `Σ₀`. -/
def bigSigma₀ (x : BitVec 32) : BitVec 32 :=
  x.rotateRight 2 ^^^ x.rotateRight 13 ^^^ x.rotateRight 22

/-- The function `Σ₁`. -/
def bigSigma₁ (x : BitVec 32) : BitVec 32 :=
  x.rotateRight 6 ^^^ x.rotateRight 11 ^^^ x.rotateRight 25

/-- The function `σ₀`. -/
def smallSigma₀ (x : BitVec 32) : BitVec 32 :=
  x.rotateRight 7 ^^^ x.rotateRight 18 ^^^ x >>> 3

/-- The function `σ₁`. -/
def smallSigma₁ (x : BitVec 32) : BitVec 32 :=
  x.rotateRight 17 ^^^ x.rotateRight 19 ^^^ x >>> 10

/-- The largest number whose `k`-th power is at most `x`, for `x` below
    `2 ^ (k * n)`: the last digit is found after all others. -/
def floorRoot (k : Nat) : Nat → Nat → Nat
  | 0, _ => 0
  | n + 1, x =>
      let r := 2 * floorRoot k n (x / 2 ^ k)
      if (r + 1) ^ k ≤ x then r + 1 else r

/-- The first 32 bits of the fractional part of the `k`-th root of a small
    number. -/
def rootFraction (k n : Nat) : BitVec 32 := BitVec.ofNat 32 (floorRoot k 40 (n * 2 ^ (32 * k)))

/-- The first 64 primes. -/
def primes : List Nat := [
  2, 3, 5, 7, 11, 13, 17, 19, 23, 29, 31, 37, 41, 43, 47, 53, 59, 61, 67, 71, 73, 79, 83, 89, 97,
  101, 103, 107, 109, 113, 127, 131, 137, 139, 149, 151, 157, 163, 167, 173, 179, 181, 191, 193,
  197, 199, 211, 223, 227, 229, 233, 239, 241, 251, 257, 263, 269, 271, 277, 281, 283, 293, 307,
  311]

/-- The words of the initial hash. -/
def initialHash : List (BitVec 32) := (primes.take 8).map (rootFraction 2)

/-- The constants of the rounds. -/
def roundConstants : List (BitVec 32) := primes.map (rootFraction 3)

theorem initialHash_eq : initialHash = Sha256.initialHash.toList := by decide +kernel

theorem roundConstants_eq : roundConstants = Sha256.roundConstants := by decide +kernel

/-! ## Compression -/

/-- The sixteen words of a block, most significant byte first. -/
def wordsOf (block : Vector (BitVec 8) 64) : Vector (BitVec 32) 16 :=
  .ofFn fun i => block[i.val * 4] ++ block[i.val * 4 + 1] ++ block[i.val * 4 + 2] ++
    block[i.val * 4 + 3]

/-- The next word of a schedule, from the last sixteen words, oldest first. -/
def nextWord (recent : Vector (BitVec 32) 16) : BitVec 32 :=
  smallSigma₁ (recent.get 14) + recent.get 9 + smallSigma₀ (recent.get 1) + recent.get 0

/-- The next `n` words of a schedule. -/
def extend : Nat → Vector (BitVec 32) 16 → List (BitVec 32)
  | 0, _ => []
  | n + 1, recent => nextWord recent :: extend n (recent.tail.push (nextWord recent))

/-- The sixty-four words of the schedule. -/
def schedule (block : Vector (BitVec 8) 64) : List (BitVec 32) :=
  (wordsOf block).toList ++ extend 48 (wordsOf block)

/-- One round, with its constant and its word of the schedule. -/
def round (k w : BitVec 32) (s : Vector (BitVec 32) 8) : Vector (BitVec 32) 8 :=
  let t₁ := s.get 7 + bigSigma₁ (s.get 4) + ch (s.get 4) (s.get 5) (s.get 6) + k + w
  let t₂ := bigSigma₀ (s.get 0) + maj (s.get 0) (s.get 1) (s.get 2)
  #v[t₁ + t₂, s.get 0, s.get 1, s.get 2, s.get 3 + t₁, s.get 4, s.get 5, s.get 6]

/-- The rounds for the given constants and words. -/
def rounds : List (BitVec 32 × BitVec 32) → Vector (BitVec 32) 8 → Vector (BitVec 32) 8
  | [], s => s
  | (k, w) :: rest, s => rounds rest (round k w s)

/-- The running hash after one more block. -/
def compress (hash : Vector (BitVec 32) 8) (block : Vector (BitVec 8) 64) :
    Vector (BitVec 32) 8 :=
  hash.zipWith (· + ·) (rounds (roundConstants.zip (schedule block)) hash)

/-! ## Messages -/

/-- Block number `i` of a list of bytes. -/
def blockAt (bytes : List (BitVec 8)) (i : Nat) : Vector (BitVec 8) 64 :=
  .ofFn fun j => bytes.getD (64 * i + j) 0

/-- The running hash after the first `n` blocks. -/
def chain (bytes : List (BitVec 8)) : Nat → Vector (BitVec 32) 8
  | 0 => .ofFn fun i => initialHash.getD i 0
  | n + 1 => compress (chain bytes n) (blockAt bytes n)

/-- A block that lies within the first of two lists is a block of it. -/
theorem blockAt_append {bytes : List (BitVec 8)} (later : List (BitVec 8)) {i : Nat}
    (h : 64 * (i + 1) ≤ bytes.length) : blockAt (bytes ++ later) i = blockAt bytes i := by
  refine Vector.ext fun j hj => ?_
  unfold blockAt
  rw [Vector.getElem_ofFn, Vector.getElem_ofFn]
  exact List.getD_append _ _ _ _ (by omega)

/-- A block at the end of a list. -/
theorem toList_blockAt {bytes : List (BitVec 8)} {i : Nat} (h : bytes.length = 64 * (i + 1)) :
    (blockAt bytes i).toList = bytes.drop (64 * i) := by
  refine List.ext_getElem ?_ fun j hj hj' => ?_
  · rw [Vector.length_toList, List.length_drop, h]
    omega
  · rw [Vector.length_toList] at hj
    rw [Vector.getElem_toList, List.getElem_drop]
    unfold blockAt
    rw [Vector.getElem_ofFn]
    exact List.getD_eq_getElem _ _ (by omega)

/-- What follows the blocks of a chain has no part in it. -/
theorem chain_append {bytes : List (BitVec 8)} (later : List (BitVec 8)) {n : Nat}
    (h : 64 * n ≤ bytes.length) : chain (bytes ++ later) n = chain bytes n := by
  induction n with
  | zero => rfl
  | succ n ih =>
      show compress (chain (bytes ++ later) n) (blockAt (bytes ++ later) n) = _
      rw [ih (by omega), blockAt_append later h]
      rfl

/-- The number of zero bytes that fill a message of `length` bytes and the byte
    after it up to eight bytes before the end of a block. -/
def zeros (length : Nat) : Nat := (119 - length % 64) % 64

/-- The zero bytes are the fewest that will do. -/
theorem zeros_spec (length : Nat) :
    (length + 1 + zeros length) % 64 = 56 ∧ ∀ k < zeros length, (length + 1 + k) % 64 ≠ 56 := by
  rw [zeros]
  constructor
  · omega
  · intro k hk
    omega

/-- The eight bytes of a number, most significant first. -/
def lengthBytes (n : Nat) : List (BitVec 8) :=
  List.ofFn fun j : Fin 8 => BitVec.ofNat 8 (n / 256 ^ (7 - j.val))

/-- A message with its padding, which ends in the number `n`. -/
def padded (message : List (BitVec 8)) (n : Nat) : List (BitVec 8) :=
  message ++ 0x80 :: (List.replicate (zeros message.length) 0 ++ lengthBytes n)

theorem padded_eq (message : List (BitVec 8)) (n : Nat) : padded message n
    = (message ++ 0x80 :: List.replicate (zeros message.length) 0) ++ lengthBytes n := by
  rw [padded, List.append_assoc, List.cons_append]

/-- The bytes of a hash, most significant first. -/
def hashBytes (hash : Vector (BitVec 32) 8) : Vector (BitVec 8) 32 :=
  .ofFn fun i => (hash.toList.getD (i.val / 4) 0).extractLsb' (8 * (3 - i.val % 4)) 8

/-- The hash of a message whose padding ends in the number `n`. -/
def digest (message : List (BitVec 8)) (n : Nat) : Vector (BitVec 8) 32 :=
  hashBytes (chain (padded message n) ((padded message n).length / 64))

/-- The hash of a message, whose padding ends in its length in bits. -/
def sha256 (message : List (BitVec 8)) : Vector (BitVec 8) 32 := digest message (8 * message.length)

/-- The number that bytes write, most significant first. -/
def bigEndian (bytes : List (BitVec 8)) : Nat := bytes.foldl (fun n b => 256 * n + b.toNat) 0

/-- The hash of the three letters `abc`. -/
example : bigEndian (sha256 [0x61, 0x62, 0x63]).toList
    = 0xba7816bf8f01cfea414140de5dae2223b00361a396177a9cb410ff61f20015ad := by decide +kernel

end RankOne.Sha256.Standard
