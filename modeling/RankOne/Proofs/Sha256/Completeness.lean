import RankOne.Proofs.Sha256.Operations

/-!
# Completeness — hashing what has values

    A digest that has the bytes of a message has those of the longer message
    after a write, and its sum has the standard's hash: the values that are
    computed on the way satisfy the rows.  Nothing is refused, since the length
    of a message fits in the eight bytes that its padding ends in.
-/

namespace RankOne.Sha256

open Build Hashing

variable {p : Nat} [Modulus p]

namespace Digest

/-- What was absorbed stays so when more values are computed. -/
theorem Absorbed.later {t t' : Witness p} {d : Digest} {m : List (BitVec 8)} {n : Nat}
    (hd : d.Absorbed (fun _ => Bits.Live t) m n) (h : t ≤ t') :
    d.Absorbed (fun _ => Bits.Live t') m n :=
  hd.imp fun _ _ _ hx => hx.mono h

theorem Reads.later {t t' : Witness p} {d : Digest} {m : List (BitVec 8)} (hd : d.Live t m)
    (h : t ≤ t') : d.Live t' m := by
  obtain ⟨n, hn⟩ := hd
  exact ⟨n, hn.later h⟩

section Honest

variable (hcap : 64 ≤ Fp.capacity p) {t : Witness p} {d : Digest} {m : List (BitVec 8)}

include hcap

/-- A full block is compressed, and the values of the compression satisfy its
    rows. -/
theorem honest_absorbFull (hd : d.Live t m) :
    Honest t (on d (absorbFull : Hashing p Unit)) fun t' a => a.2.Live t' m := by
  by_cases hfull : d.pending.size = 64
  · obtain ⟨n, hn⟩ := hd
    rw [on_absorbFull hfull]
    refine Honest.map ((honest_compress hcap hn.hash (hn.block hfull)).mapError.within.mono ?_)
    intro t' hash hle hhash
    exact ⟨n + 1, (hn.later hle).absorbed hfull hhash⟩
  · rw [on_absorbFull_of_ne hfull]
    exact Honest.pure fun t' hle => hd.later hle

/-- By induction on the bytes, with the message so far as the invariant. -/
theorem honest_absorb {bytes : List Byte} {vs : List (BitVec 8)} (hd : d.Live t m)
    (hvs : List.Forall₂ (Bits.Live t) bytes vs) :
    Honest t (on d (absorb bytes : Hashing p Unit)) fun t' a => a.2.Live t' (m ++ vs) := by
  induction bytes generalizing t d m vs with
  | nil =>
      obtain rfl := List.forall₂_nil_left_iff.mp hvs
      rw [List.append_nil]
      exact Honest.pure fun t' hle => hd.later hle
  | cons b rest ih =>
      obtain ⟨v, vs, hb, hrest, rfl⟩ := List.forall₂_cons_left_iff.mp hvs
      obtain ⟨n, hn⟩ := hd
      -- the message grows by the byte that was pushed, whether or not it filled a block
      rw [on_absorb_cons, ← List.singleton_append, ← List.append_assoc]
      refine (honest_absorbFull hcap ⟨n, hn.push hb⟩).bind fun t' a hle ha => ?_
      exact ih ha (hrest.imp fun _ _ hx => hx.mono hle)

/-- A write to an open digest is refused nothing. -/
theorem honest_write {bytes : List Byte} {vs : List (BitVec 8)} (hopen : d.stage ≠ .finalized)
    (hd : d.Live t m) (hvs : List.Forall₂ (Bits.Live t) bytes vs) :
    Honest t (on d (write bytes : Hashing p Nat)) fun t' a => a.2.Live t' (m ++ vs) := by
  rw [on_write hopen]
  refine Honest.map ?_
  exact honest_absorb hcap (d := d.expecting bytes.length) (hd.congr rfl rfl) hvs

/-- Numbers that hold bytes. -/
def Hold (t : Witness p) (xs : List (Num p)) (vs : List (BitVec 8)) : Prop :=
  List.Forall₂ (fun x v => x.Live t (v.toNat : Fp p)) xs vs

/-- Numbers that hold bytes can be split into eight digits. -/
theorem honest_bytesOf (op : Nat) {xs : List (Num p)} {vs : List (BitVec 8)} (h : Hold t xs vs) :
    Honest t (bytesOf op xs) fun t' bytes => List.Forall₂ (Bits.Live t') bytes vs := by
  rw [bytesOf]
  generalize 0 = i
  induction xs generalizing t vs i with
  | nil =>
      obtain rfl := List.forall₂_nil_left_iff.mp h
      exact Honest.pure fun _ _ => List.Forall₂.nil
  | cons x rest ih =>
      obtain ⟨v, vs, hx, hrest, rfl⟩ := List.forall₂_cons_left_iff.mp h
      have hval : (v.toNat : Fp p).val = v.toNat :=
        Fp.val_cast_of_lt (v.isLt.trans_le (Fp.two_pow_le_of_le_capacity (by omega)))
      have hbyte := Bits.honest_fromNum (w := 8) hx (by omega) (hval.trans_lt v.isLt)
      rw [hval, BitVec.ofNat_toNat, BitVec.setWidth_eq] at hbyte
      rw [List.zipIdx_cons, List.mapM_cons]
      refine hbyte.within.bind fun t₁ b hle₁ hb => ?_
      refine (ih (hrest.imp fun _ _ hx => hx.mono hle₁) (i + 1)).bind fun t₂ bytes hle₂ hbytes => ?_
      exact Honest.pure fun t₃ hle₃ => .cons (hb.mono (hle₂.trans hle₃))
        (hbytes.imp fun _ _ hx => hx.mono hle₃)

/-- Numbers that hold bytes may be written. -/
theorem honest_writeNums {xs : List (Num p)} {vs : List (BitVec 8)}
    (hopen : d.stage ≠ .finalized) (hd : d.Live t m) (h : Hold t xs vs) :
    Honest t (on d (writeNums xs)) fun t' a => a.2.Live t' (m ++ vs) := by
  have hd' : d.numbered.Live t m := hd.congr rfl rfl
  rw [on_writeNums hopen]
  refine (honest_bytesOf hcap d.ops h).mapError.bind fun t' bytes hle hbytes => ?_
  exact honest_write hcap hopen (hd'.later hle) hbytes

section Sum

variable {ignore : LinNum p} (hopen : d.stage ≠ .finalized) (halign : d.Aligned)
  (hd : d.Live t m) (hlength : d.length = m.length)

include hopen halign hd hlength

/-- The length is all that a sum refuses: it has to fit in eight bytes, as the
    element that it is. -/
theorem honest_sumBytes_of_lt {v : Fp p} (hv : ignore.Live t v)
    (hlt : (8 * ((m.length : Fp p) - v)).val < 2 ^ 64) :
    Honest t (on d (sumBytes ignore)) fun t' a =>
      Each (Bits.Live t') a.1 (Standard.digest m (8 * ((m.length : Fp p) - v)).val) := by
  rw [on_sumBytes hopen]
  have hpad := honest_write hcap (d := d.numbered) hopen (hd.congr rfl rfl)
    (forall₂_padding (fun v : BitVec 8 => Bits.live_constant t v) d.length)
  refine (hpad.and_gives (gives_write _ halign.lt)).within.bind fun t₁ a hle₁ ⟨ha, hgrown⟩ => ?_
  have halign₁ : a.2.Aligned := Aligned.grown (d := d.numbered) halign hgrown
  have hopen₁ : a.2.stage ≠ .finalized := by
    rw [hgrown.stage]
    nofun
  -- the length field is what the padding ends in
  rw [hlength] at ha ⊢
  have hlive := live_lengthField (hv.mono hle₁) m.length
  refine (LinNum.honest_toBits hlive hcap hlt).mapError.within.bind fun t₂ bits hle₂ hbits => ?_
  have hlast := honest_write hcap hopen₁ (ha.later hle₂) (live_lengthBytes hbits)
  refine (hlast.and_gives (gives_write _ halign₁.lt)).within.bind
    fun t₃ a' hle₃ ⟨ha', hgrown'⟩ => ?_
  have hsize : a'.2.pending.size = 0 := size_of_grown (d := d.numbered) halign hgrown hgrown'
  rw [close, if_neg (not_not.mpr hsize)]
  refine Honest.pure fun t₄ hle₄ => live_hashBytes ?_
  -- nothing is left over, so the running hash is that of the whole padded message
  have hchain := (ha'.later hle₄).chain hsize
  rw [← Standard.padded_eq] at hchain
  exact hchain

theorem honest_sum_of_lt {v : Fp p} (hv : ignore.Live t v)
    (hlt : (8 * ((m.length : Fp p) - v)).val < 2 ^ 64) :
    Honest t (on d (sum ignore)) fun t' a => a.1.Live t' ((Standard.bigEndian
      (Standard.digest m (8 * ((m.length : Fp p) - v)).val).toList : Nat) : Fp p) := by
  rw [on_sum]
  refine (honest_sumBytes_of_lt hcap hopen halign hd hlength hv hlt).bind fun t' a _ ha =>
    Honest.map ?_
  rw [← natOfBits_digitsOf]
  exact (Num.honest_ofBits (forall₂_digitsOf (ha.imp fun _ _ hx => hx.2))).mapError.within

variable {k : Nat} (hk : ignore.Live t (k : Fp p)) (hle : k ≤ m.length) (hlt : m.length < 2 ^ 61)

include hk hle hlt

/-- Where no more is ignored than was written, the sum is the standard's
    digest. -/
theorem honest_sumBytes : Honest t (on d (sumBytes ignore)) fun t' a =>
    Each (Bits.Live t') a.1 (Standard.digest m (8 * (m.length - k))) := by
  have hval := val_lengthField hcap hle hlt
  rw [← hval]
  exact honest_sumBytes_of_lt hcap hopen halign hd hlength hk (by omega)

/-- So it is as the number that it is packed into. -/
theorem honest_sum : Honest t (on d (sum ignore)) fun t' a => a.1.Live t'
    ((Standard.bigEndian (Standard.digest m (8 * (m.length - k))).toList : Nat) : Fp p) := by
  have hval := val_lengthField hcap hle hlt
  rw [← hval]
  exact honest_sum_of_lt hcap hopen halign hd hlength hk (by omega)

end Sum

end Honest

end Digest

/-- Hashing numbers that hold bytes. -/
theorem honest_sha256 {t : Witness p} (hcap : 64 ≤ Fp.capacity p) {ignore : LinNum p} {k : Nat}
    {data : List (Num p)} {m : List (BitVec 8)} (hdata : Digest.Hold t data m)
    (hk : ignore.Live t (k : Fp p)) (hle : k ≤ m.length) (hlt : m.length < 2 ^ 61) :
    Honest t (sha256 ignore data) fun t' x => x.Live t'
      ((Standard.bigEndian (Standard.digest m (8 * (m.length - k))).toList : Nat) : Fp p) := by
  have hnew : Digest.new.Live t [] := Digest.live_new t
  rw [sha256_eq]
  refine Honest.map ?_
  have hwrite := (Digest.honest_writeNums hcap (by decide) hnew hdata).and_gives
    (Digest.gives_writeNums data (d := .new) (by decide))
  refine hwrite.within.bind fun t' a hle' ⟨ha, hgrown⟩ => ?_
  have hlength : a.2.length = m.length := by
    rw [hgrown.length, ← hdata.length_eq]
    exact Nat.zero_add _
  have hopen : a.2.stage ≠ .finalized := by
    rw [hgrown.stage]
    nofun
  exact (Digest.honest_sum hcap hopen (Digest.Aligned.grown (Digest.aligned_startAt 1) hgrown) ha
    hlength (hk.mono hle') hle hlt).within

end RankOne.Sha256
