import RankOne.Proofs.Primes
import RankOne.Proofs.Sha256.Operations

/-!
# Soundness — what the rows of a hash force

    Whatever assignment satisfies the rows, a digest that reads as a message
    reads as the longer message after a write, and the bytes of its sum are
    the standard's hash.  The induction is on the bytes that are absorbed; the
    compression of a block is the step that has rows.
-/

namespace RankOne.Sha256

open Build Hashing

variable {p : Nat} [Modulus p]

namespace Digest

section Forces

variable {z : Variable → Fp p} (hp : p.Prime) (one : z .one = 1) (hcap : 64 ≤ Fp.capacity p)

include hp one hcap

/-- Whether or not a block was full, what is absorbed is the message. -/
theorem forces_absorbFull (d : Digest) :
    Forces z (on d (absorbFull : Hashing p Unit)) fun a => ∀ m, d.Is z m → a.2.Is z m := by
  by_cases hfull : d.pending.size = 64
  · rw [on_absorbFull hfull]
    refine Forces.map ((forces_compress hp one hcap _ _).mapError.within.mono fun hash h m => ?_)
    rintro ⟨n, hn⟩
    exact ⟨n + 1, hn.absorbed hfull (h _ _ hn.hash (hn.block hfull))⟩
  · rw [on_absorbFull_of_ne hfull]
    exact Forces.pure fun m h => h

/-- By induction on the bytes, with the message so far as the invariant. -/
theorem forces_absorb (bytes : List Byte) (d : Digest) :
    Forces z (on d (absorb bytes : Hashing p Unit)) fun a =>
      ∀ m vs, d.Is z m → List.Forall₂ (Bits.Is z) bytes vs → a.2.Is z (m ++ vs) := by
  induction bytes generalizing d with
  | nil =>
      refine Forces.pure fun m vs h hvs => ?_
      obtain rfl := List.forall₂_nil_left_iff.mp hvs
      rw [List.append_nil]
      exact h
  | cons b rest ih =>
      rw [on_absorb_cons]
      refine (forces_absorbFull hp one hcap (d.push b)).bind fun a => (ih a.2).mono fun a' h' => ?_
      rintro h m vs ⟨n, hn⟩ hvs
      obtain ⟨v, rest', hb, hrest, rfl⟩ := List.forall₂_cons_left_iff.mp hvs
      rw [← List.singleton_append, ← List.append_assoc]
      exact h' _ _ (h _ ⟨n, hn.push hb⟩) hrest

/-- The rows of a write force the longer message. -/
theorem forces_write (bytes : List Byte) (d : Digest) :
    Forces z (on d (write bytes : Hashing p Nat)) fun a =>
      ∀ m vs, d.Is z m → List.Forall₂ (Bits.Is z) bytes vs → a.2.Is z (m ++ vs) := by
  by_cases hstage : d.stage = .finalized
  · rw [on_write_finalized hstage]
    exact Forces.throw _ _
  · rw [on_write hstage]
    refine Forces.map ((forces_absorb hp one hcap bytes _).mono fun a h m vs hd => ?_)
    exact h m vs (hd.congr rfl rfl)

omit hcap in
/-- The rows of a number's bytes force its digits. -/
theorem forces_bytesOf (op : Nat) (xs : List (Num p)) :
    Forces z (bytesOf op xs) fun bytes => (∀ x ∈ xs, (z x.var).val < 256) ∧
      List.Forall₂ (Bits.Is z) bytes (xs.map fun x => BitVec.ofNat 8 (z x.var).val) := by
  refine (Forces.listMapM xs.zipIdx
    fun x _ => (Bits.forces_fromNum hp one x.1).within).mono fun bytes h => ?_
  have hbytes : List.Forall₂ (fun x b => (z x.var).val < 256 ∧
      b.Is z (BitVec.ofNat 8 (z x.var).val)) xs bytes := forall₂_zipIdx.mp h
  obtain ⟨hlt, hread⟩ := (List.forall₂_and_left _ _).mp hbytes
  exact ⟨hlt, List.forall₂_map_right_iff.mpr hread.flip⟩

/-- The rows of a write of numbers force these to be bytes, and the message to
    be longer by them. -/
theorem forces_writeNums (xs : List (Num p)) (d : Digest) :
    Forces z (on d (writeNums xs)) fun a => (∀ x ∈ xs, (z x.var).val < 256) ∧
      ∀ m, d.Is z m → a.2.Is z (m ++ xs.map fun x => BitVec.ofNat 8 (z x.var).val) := by
  by_cases hstage : d.stage = .finalized
  · rw [on_writeNums_finalized hstage]
    exact Forces.throw _ _
  · rw [on_writeNums hstage]
    refine (forces_bytesOf hp one d.ops xs).mapError.bind fun bytes => ?_
    refine (forces_write hp one hcap bytes d.numbered).mono fun a h hbytes => ?_
    exact ⟨hbytes.1, fun m hd => h _ _ (hd.congr rfl rfl) hbytes.2⟩

/-- The rows of a sum force the standard's digest of what was written. -/
theorem forces_sumBytes (ignore : LinNum p) (d : Digest) :
    Forces z (on d (sumBytes ignore)) fun a =>
      (8 * ((d.length : Fp p) - ignore.comb.eval z)).val < 2 ^ 64 ∧
      ∀ m, d.Is z m → d.length = m.length → Each (Bits.Is z) a.1
        (Standard.digest m (8 * ((d.length : Fp p) - ignore.comb.eval z)).val) := by
  by_cases hstage : d.stage = .finalized
  · rw [on_sumBytes_finalized hstage]
    exact Forces.throw _ _
  rw [on_sumBytes hstage, ← eval_lengthField one]
  refine (forces_write hp one hcap _ d.numbered).within.bind fun a => ?_
  refine (LinNum.forces_toBits hp one _ 64).mapError.within.bind fun bits => ?_
  refine (forces_write hp one hcap _ a.2).within.bind fun a' => ?_
  rw [close]
  refine Forces.ite (fun _ => Forces.throw _ _) fun hsize => Forces.pure fun hlast hbits hpad => ?_
  refine ⟨hbits.1, fun m hd hlength => is_hashBytes ?_⟩
  have hconst : ∀ v, Bits.Is z (.constant (Bits.cell v) : Byte) v := fun v =>
    Bits.reads_constant (Bit.val_const one) v
  -- the digest has read the message, then the padding, then the length that the rows force
  have hfirst := hpad m _ (hd.congr rfl rfl) (forall₂_padding hconst d.length)
  have hread := (hlast _ _ hfirst (is_lengthBytes hbits.2)).chain (not_not.mp hsize)
  rw [hlength, ← Standard.padded_eq, ← hlength] at hread
  exact hread

/-- And that the number it is packed into is that digest, read from the highest
    byte. -/
theorem forces_sum (ignore : LinNum p) (d : Digest) :
    Forces z (on d (sum ignore)) fun a =>
      (8 * ((d.length : Fp p) - ignore.comb.eval z)).val < 2 ^ 64 ∧
      ∀ m, d.Is z m → d.length = m.length → z a.1.var = ((Standard.bigEndian (Standard.digest m
        (8 * ((d.length : Fp p) - ignore.comb.eval z)).val).toList : Nat) : Fp p) := by
  rw [on_sum]
  refine (forces_sumBytes hp one hcap ignore d).bind fun a => Forces.map ?_
  refine (Num.forces_ofBits one _).mapError.within.mono fun x hx hbytes => ?_
  refine ⟨hbytes.1, fun m hd hlength => ?_⟩
  rw [← natOfBits_digitsOf]
  exact hx _ (forall₂_digitsOf (hbytes.2 m hd hlength))

end Forces

end Digest

/-! ## Hashing numbers at once -/

/-- The bytes that numbers stand for under an assignment. -/
def bytesAt (z : Variable → Fp p) (data : List (Num p)) : List (BitVec 8) :=
  data.map fun x => BitVec.ofNat 8 (z x.var).val

/-- The rows of a whole hash force the standard's digest of the data. -/
theorem forces_sha256 {z : Variable → Fp p} (hp : p.Prime) (one : z .one = 1)
    (hcap : 64 ≤ Fp.capacity p) (ignore : LinNum p) (data : List (Num p)) :
    Forces z (sha256 ignore data) fun out =>
      (∀ x ∈ data, (z x.var).val < 256) ∧
      (8 * ((data.length : Fp p) - ignore.comb.eval z)).val < 2 ^ 64 ∧
      z out.var = ((Standard.bigEndian (Standard.digest (bytesAt z data)
        (8 * ((data.length : Fp p) - ignore.comb.eval z)).val).toList : Nat) : Fp p) := by
  have hnew : Digest.new.Is z [] := Digest.is_new one
  rw [sha256_eq]
  refine Forces.map ?_
  refine ((Digest.forces_writeNums hp one hcap data .new).and_gives
    (Digest.gives_writeNums data (d := .new) (by decide))).within.bind fun a => ?_
  refine (Digest.forces_sum hp one hcap ignore a.2).within.mono fun b hsum => ?_
  rintro ⟨⟨hbytes, hread⟩, hgrown⟩
  have hlength : a.2.length = data.length := hgrown.length.trans (Nat.zero_add _)
  -- the bytes read are those that the assignment gives the variables
  rw [hlength] at hsum
  exact ⟨hbytes, hsum.1, hsum.2 _ (hread [] hnew) (List.length_map _).symm⟩

/-- Soundness of hashing: a compiling run always gives a circuit, and whoever
    satisfies its rows has bytes for a message and, in the result, the
    standard's hash of them, with a padding that ends in the length less what
    is ignored. -/
theorem sha256_sound (hp : p.Prime) (hcap : 64 ≤ Fp.capacity p) (ignore : LinNum p)
    (data : List (Num p)) (s : System p) :
    ∃ out s', sha256 ignore data .compiling s = .ok out s' ∧
      ∀ z : Variable → Fp p, z .one = 1 → s'.HoldsSince s z →
        (∀ x ∈ data, (z x.var).val < 256) ∧
        (8 * ((data.length : Fp p) - ignore.comb.eval z)).val < 2 ^ 64 ∧
        z out.var = ((Standard.bigEndian (Standard.digest (bytesAt z data)
          (8 * ((data.length : Fp p) - ignore.comb.eval z)).val).toList : Nat) : Fp p) := by
  obtain ⟨out, s', hrun, _⟩ := compiles_sha256 hcap ignore data s
  refine ⟨out, s', hrun, fun z one hrows => ?_⟩
  exact (forces_sha256 hp one hcap ignore data .compiling s s' out rfl hrun).2 hrows

/-- Three variables. -/
def threeVars : List (Num Moduli.bn256) := [⟨.aux 0, none⟩, ⟨.aux 1, none⟩, ⟨.aux 2, none⟩]

/-- Variables that hold the letters `abc` have their hash. -/
theorem sha256_sound_abc : ∃ out s', sha256 (.const 0) threeVars .compiling
      { System.start with numAux := 3 } = .ok out s' ∧
    ∀ z : Variable → Fp Moduli.bn256, z .one = 1 → z (.aux 0) = 0x61 → z (.aux 1) = 0x62 →
      z (.aux 2) = 0x63 → s'.HoldsSince { System.start with numAux := 3 } z →
        z out.var = Fp.ofNat
          0xba7816bf8f01cfea414140de5dae2223b00361a396177a9cb410ff61f20015ad := by
  obtain ⟨out, s', hrun, hsound⟩ := sha256_sound Moduli.bn256_prime (by decide) (.const 0)
    threeVars { System.start with numAux := 3 }
  refine ⟨out, s', hrun, fun z one h0 h1 h2 hrows => ?_⟩
  obtain ⟨_, _, hout⟩ := hsound z one hrows
  have hbytes : bytesAt z threeVars = [0x61, 0x62, 0x63] := by
    show [BitVec.ofNat 8 (z (.aux 0)).val, BitVec.ofNat 8 (z (.aux 1)).val,
      BitVec.ofNat 8 (z (.aux 2)).val] = _
    rw [h0, h1, h2]
    decide
  -- the three letters are twenty-four bits
  have hlength : (8 * ((threeVars.length : Fp Moduli.bn256) - (LinNum.const 0).comb.eval z)).val
      = 24 := by
    refine Fp.val_eq_of_eq_cast ?_ (by decide)
    show 8 * ((3 : Nat) - (LinComb.const 0).eval z) = ((24 : Nat) : Fp Moduli.bn256)
    rw [LinComb.eval_const, zero_mul, sub_zero]
    norm_num
  have hhash : Standard.bigEndian (Standard.digest [0x61, 0x62, 0x63] 24).toList
      = 0xba7816bf8f01cfea414140de5dae2223b00361a396177a9cb410ff61f20015ad := by decide +kernel
  rw [hout, hbytes, hlength, hhash]
  rfl

end RankOne.Sha256
