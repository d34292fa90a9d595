import Mathlib.Data.List.Forall2
import RankOne.Proofs.Sha256.Compression
import RankOne.Proofs.Sha256.Standard
import RankOne.Sha256.Digest

/-!
# Hashing — circuits that work on a digest

    A circuit that works on a digest is, for a given digest, a circuit that
    gives the digest it leaves beside its result.  Seen that way
    (`Hashing.on`) it is put together from circuits only, and what is known of
    circuits applies to it.

    `d.Reads R m` is the invariant of a digest to which the bytes `m` have been
    written: some number of complete blocks of `m` are in its hash, and the
    bytes that are pending are those after them.
-/

namespace RankOne.Sha256

open Build

variable {p : Nat} {α β : Type}

namespace Hashing

/-- The circuit on a given digest, which gives the digest that it leaves. -/
def on (d : Digest) (body : Hashing p α) : Build p GadgetError (α × Digest) := fun mode s =>
  match body mode (d, s) with
  | .ok a (d, s) => .ok (a, d) s
  | .error e (_, s) => .error e s

/-- A run on a digest forgets the digest that it leaves. -/
theorem run_eq (d : Digest) (body : Hashing p α) : run d body = Prod.fst <$> on d body := by
  funext mode s
  rw [map_eq_bind, bind_apply]
  rw [run, on]
  cases body mode (d, s) with
  | ok a ds => rfl
  | error e ds => rfl

theorem on_pure (d : Digest) (a : α) : on d (pure a : Hashing p α) = pure (a, d) := rfl

theorem on_throw (d : Digest) (e : GadgetError) : on d (throw e : Hashing p α) = throw e := rfl

/-- What comes second runs on the digest that comes first leaves. -/
theorem on_bind (d : Digest) (x : Hashing p α) (f : α → Hashing p β) :
    on d (x >>= f) = on d x >>= fun a => on a.2 (f a.1) := by
  funext mode s
  rw [bind_apply]
  unfold on
  change (match EStateM.bind (x mode) (fun a => f a mode) (d, s) with
    | EStateM.Result.ok b (d, s) => EStateM.Result.ok (b, d) s
    | EStateM.Result.error e (_, s) => EStateM.Result.error e s) = _
  rw [EStateM.bind]
  cases x mode (d, s) with
  | ok a ds => rfl
  | error e ds => rfl

theorem on_lift (d : Digest) (body : Build p SynthesisError α) :
    on d (lift body) = (fun a => (a, d)) <$> mapError SynthesisError.toGadgetError body := by
  funext mode s
  rw [map_eq_bind, bind_apply]
  unfold on lift mapError
  dsimp only
  cases body mode s with
  | ok a s => rfl
  | error e s => rfl

/-- A namespace is opened around a circuit on a digest as around any. -/
theorem on_within (d : Digest) (name : String) (body : Hashing p α) :
    on d (within name body) = Build.within name (on d body) := by
  funext mode s
  unfold on within Build.within
  dsimp only
  cases body mode (d, recording mode (·.enter name) s) with
  | ok a ds => rfl
  | error e ds => rfl

/-- Runs `body` in namespaces, the outermost first. -/
def inside (path : List String) (body : Hashing p α) : Hashing p α := path.foldr within body

theorem on_inside (d : Digest) (body : Hashing p α) : (path : List String) →
    on d (inside path body) = Build.inside path (on d body)
  | [] => rfl
  | name :: path => by
      have hrest := on_inside d body path
      show on d (within name (inside path body)) = Build.within name (Build.inside path (on d body))
      rw [on_within, hrest]

theorem on_digest (d : Digest) : on d (digest : Hashing p Digest) = pure (d, d) := rfl

theorem on_change (d : Digest) (f : Digest → Digest) :
    on d (change f : Hashing p Unit) = pure ((), f d) := rfl

end Hashing

namespace Digest

open Hashing

/-! ## What the operations do to a digest -/

/-- The digest with one more byte pending. -/
def push (d : Digest) (b : Byte) : Digest := { d with pending := d.pending.push b }

/-- The digest with the pending bytes absorbed into a new hash. -/
def absorbed (d : Digest) (hash : Vector Word 8) : Digest :=
  { d with hash, pending := #[], ops := d.ops + 1 }

/-- The digest that is about to take `n` bytes. -/
def expecting (d : Digest) (n : Nat) : Digest :=
  { d with length := d.length + n, stage := .streaming }

/-- The digest after an operation number was taken. -/
def numbered (d : Digest) : Digest := { d with ops := d.ops + 1 }

theorem on_nextOp (d : Digest) :
    on d (nextOp : Hashing p Nat) = pure (d.ops, d.numbered) := rfl

/-- An open digest is open. -/
theorem on_ensureOpen {d : Digest} (h : d.stage ≠ .finalized) :
    on d (ensureOpen : Hashing p Unit) = pure ((), d) := by
  rw [ensureOpen, on_bind, on_digest, pure_bind, if_neg h, on_pure]

/-- A digest that was summed refuses. -/
theorem on_ensureOpen_finalized {d : Digest} (h : d.stage = .finalized) :
    on d (ensureOpen : Hashing p Unit) = throw .digestFinalized := by
  rw [ensureOpen, on_bind, on_digest, pure_bind, if_pos h, on_throw]

section Operations

variable [Modulus p]

/-- A full block is hashed and taken out of what is pending. -/
theorem on_absorbFull {d : Digest} (h : d.pending.size = 64) :
    on d (absorbFull : Hashing p Unit) = (fun hash => ((), d.absorbed hash)) <$>
      Build.within s!"block {d.ops}"
        (mapError SynthesisError.toGadgetError (compress d.hash ⟨d.pending, h⟩)) := by
  rw [absorbFull]
  rw [on_bind, on_digest, pure_bind, dif_pos h, on_bind, on_nextOp, pure_bind, on_bind, on_change,
    pure_bind, on_bind, on_within, on_lift, within_map, bind_map_left, map_eq_pure_bind]
  refine congrArg (_ >>= ·) (funext fun hash => ?_)
  exact on_change _ _

/-- Otherwise nothing happens. -/
theorem on_absorbFull_of_ne {d : Digest} (h : d.pending.size ≠ 64) :
    on d (absorbFull : Hashing p Unit) = pure ((), d) := by
  rw [absorbFull, on_bind, on_digest, pure_bind, dif_neg h, on_pure]

theorem on_absorb_nil (d : Digest) : on d (absorb [] : Hashing p Unit) = pure ((), d) := rfl

/-- Bytes are absorbed one by one. -/
theorem on_absorb_cons (d : Digest) (b : Byte) (rest : List Byte) :
    on d (absorb (b :: rest) : Hashing p Unit)
      = on (d.push b) absorbFull >>= fun a => on a.2 (absorb rest) := by
  rw [absorb, on_bind, on_change, pure_bind, on_bind]
  rfl

/-- A write counts the bytes before it absorbs them. -/
theorem on_write {d : Digest} (h : d.stage ≠ .finalized) (bytes : List Byte) :
    on d (write bytes : Hashing p Nat)
      = (fun a => (bytes.length, a.2)) <$> on (d.expecting bytes.length) (absorb bytes) := by
  rw [write, on_bind, on_ensureOpen h, pure_bind, on_bind, on_change, pure_bind, on_bind]
  rfl

theorem on_write_finalized {d : Digest} (h : d.stage = .finalized) (bytes : List Byte) :
    on d (write bytes : Hashing p Nat) = throw .digestFinalized := by
  rw [write, on_bind, on_ensureOpen_finalized h]
  rfl

/-- A write of numbers takes one operation number. -/
theorem on_writeNums {d : Digest} (h : d.stage ≠ .finalized) (xs : List (Num p)) :
    on d (writeNums xs) = mapError SynthesisError.toGadgetError (bytesOf d.ops xs) >>= fun bytes =>
      on d.numbered (write bytes) := by
  rw [writeNums]
  rw [on_bind, on_ensureOpen h, pure_bind, on_bind, on_nextOp, pure_bind, on_bind, on_lift,
    bind_map_left]

theorem on_writeNums_finalized {d : Digest} (h : d.stage = .finalized) (xs : List (Num p)) :
    on d (writeNums xs) = throw .digestFinalized := by
  rw [writeNums, on_bind, on_ensureOpen_finalized h]
  rfl

/-- The end of a sum: nothing may be pending. -/
def close (d : Digest) : Build p GadgetError (Vector Byte 32 × Digest) :=
  if d.pending.size ≠ 0 then throw (.paddingInvariant d.pending.size)
  else pure (hashBytes d.hash, { d with stage := .finalized })

/-- A sum writes the padding and the length, and then finalizes the digest. -/
theorem on_sumBytes {d : Digest} (h : d.stage ≠ .finalized) (ignore : LinNum p) :
    on d (sumBytes ignore) =
      Build.within s!"padding {d.ops}" (on d.numbered (write (padding d.length))) >>= fun a =>
      Build.within s!"length {d.ops}"
        (mapError SynthesisError.toGadgetError ((lengthField d.length ignore).toBits 64)) >>=
          fun bits =>
      Build.within s!"length bytes {d.ops}" (on a.2 (write (lengthBytes bits))) >>= fun a =>
      close a.2 := by
  unfold sumBytes close
  rw [on_bind, on_ensureOpen h, pure_bind, on_bind, on_nextOp, pure_bind, on_bind, on_digest,
    pure_bind, on_bind, on_within]
  refine congrArg (_ >>= ·) (funext fun a => ?_)
  -- a circuit that does not look at the digest hands it on as it is
  rw [on_bind, on_within, on_lift, within_map, bind_map_left]
  refine congrArg (_ >>= ·) (funext fun bits => ?_)
  rw [on_bind, on_within]
  refine congrArg (_ >>= ·) (funext fun a' => ?_)
  rw [on_bind, on_digest, pure_bind]
  by_cases hsize : a'.2.pending.size = 0
  · rw [if_neg (not_not.mpr hsize), if_neg (not_not.mpr hsize)]
    rfl
  · rw [if_pos hsize, if_pos hsize]
    rfl

theorem on_sumBytes_finalized {d : Digest} (h : d.stage = .finalized) (ignore : LinNum p) :
    on d (sumBytes ignore) = throw .digestFinalized := by
  rw [sumBytes, on_bind, on_ensureOpen_finalized h]
  rfl

/-- A sum as a number packs the bytes of the hash. -/
theorem on_sum (d : Digest) (ignore : LinNum p) :
    on d (sum ignore) = on d (sumBytes ignore) >>= fun a =>
      (fun x => (x, a.2.numbered)) <$> Build.within s!"pack {a.2.ops}"
        (mapError SynthesisError.toGadgetError
          (Num.ofBits (a.1.toList.reverse.flatMap (·.bits.toList)))) := by
  rw [sum, on_bind]
  refine congrArg (_ >>= ·) (funext fun a => ?_)
  rw [on_bind, on_nextOp, pure_bind, on_within, on_lift, within_map]

end Operations

/-! ## Counting bytes and operations -/

/-- What `n` more bytes make of a digest, apart from its hash: full blocks go,
    each with an operation number. -/
structure Grown (d : Digest) (n : Nat) (d' : Digest) : Prop where
  length : d'.length = d.length
  stage : d'.stage = d.stage
  size : d'.pending.size = (d.pending.size + n) % 64
  ops : d'.ops = d.ops + (d.pending.size + n) / 64

section Counting

variable [Modulus p]

/-- After a full block nothing is pending, and one more operation is done. -/
theorem gives_absorbFull {d : Digest} (h : d.pending.size ≤ 64) :
    Gives (on d (absorbFull : Hashing p Unit)) fun a => d.Grown 0 a.2 := by
  by_cases hfull : d.pending.size = 64
  · rw [on_absorbFull hfull]
    refine ((Gives.any _).mono fun hash _ => ?_).map
    refine ⟨rfl, rfl, ?_, ?_⟩
    · rw [hfull]
      rfl
    · rw [hfull]
      rfl
  · rw [on_absorbFull_of_ne hfull]
    refine Gives.pure ⟨rfl, rfl, ?_, ?_⟩
    · show d.pending.size = _
      omega
    · show d.ops = _
      omega

/-- What is pending stays less than a block. -/
theorem gives_absorb (bytes : List Byte) {d : Digest} (h : d.pending.size < 64) :
    Gives (on d (absorb bytes : Hashing p Unit)) fun a => d.Grown bytes.length a.2 := by
  induction bytes generalizing d with
  | nil =>
      rw [on_absorb_nil]
      refine Gives.pure ⟨rfl, rfl, (Nat.mod_eq_of_lt h).symm, ?_⟩
      rw [List.length_nil, Nat.add_zero, Nat.div_eq_of_lt h]
      rfl
  | cons b rest ih =>
      -- the byte fills a block or not; counted from before, a filled block is one of the whole
      have hpush : (d.push b).pending.size = d.pending.size + 1 := Array.size_push _
      rw [on_absorb_cons]
      refine (gives_absorbFull (by omega)).bind fun a ha => ?_
      have hsize := ha.size
      have hops := ha.ops
      have hsame : (d.push b).ops = d.ops := rfl
      refine (ih (by omega)).mono fun a' ha' => ⟨?_, ?_, ?_, ?_⟩
      · exact ha'.length.trans ha.length
      · exact ha'.stage.trans ha.stage
      · rw [ha'.size, List.length_cons]
        omega
      · rw [ha'.ops, List.length_cons]
        omega

/-- The length grows by what was written. -/
theorem gives_write (bytes : List Byte) {d : Digest} (h : d.pending.size < 64) :
    Gives (on d (write bytes : Hashing p Nat)) fun a =>
      (d.expecting bytes.length).Grown bytes.length a.2 := by
  by_cases hstage : d.stage = .finalized
  · rw [on_write_finalized hstage]
    exact Gives.throw _ _
  · rw [on_write hstage]
    refine Gives.map ?_
    exact gives_absorb bytes h

theorem gives_bytesOf (op : Nat) (xs : List (Num p)) :
    Gives (bytesOf op xs) fun bytes => bytes.length = xs.length := by
  refine (Gives.listMapM xs.zipIdx).mono fun bytes h => ?_
  rw [h, List.length_zipIdx]

/-- Also where numbers were written. -/
theorem gives_writeNums (xs : List (Num p)) {d : Digest} (h : d.pending.size < 64) :
    Gives (on d (writeNums xs)) fun a =>
      (d.numbered.expecting xs.length).Grown xs.length a.2 := by
  by_cases hstage : d.stage = .finalized
  · rw [on_writeNums_finalized hstage]
    exact Gives.throw _ _
  · rw [on_writeNums hstage]
    refine (gives_bytesOf d.ops xs).mapError.bind fun bytes hbytes => ?_
    rw [← hbytes]
    exact gives_write bytes h

end Counting

/-! ## What a digest has read -/

/-- The first `n` blocks of the bytes `m` are in the hash, and the others are
    pending.  `R` says when bits of the circuit stand for an integer. -/
structure Absorbed (R : (w : Nat) → Bits w → BitVec w → Prop) (d : Digest) (m : List (BitVec 8))
    (n : Nat) : Prop where
  hash : Each (R 32) d.hash (Standard.chain m n)
  le : 64 * n ≤ m.length
  pending : List.Forall₂ (R 8) d.pending.toList (m.drop (64 * n))

/-- The digest is one to which the bytes `m` have been written. -/
def Reads (R : (w : Nat) → Bits w → BitVec w → Prop) (d : Digest) (m : List (BitVec 8)) : Prop :=
  ∃ n, d.Absorbed R m n

section Reads

variable {R : (w : Nat) → Bits w → BitVec w → Prop} {d : Digest} {m : List (BitVec 8)} {n : Nat}

/-- Of what was absorbed less may be said. -/
theorem Absorbed.imp {S : (w : Nat) → Bits w → BitVec w → Prop} (h : d.Absorbed R m n)
    (hRS : ∀ w x v, R w x v → S w x v) : d.Absorbed S m n :=
  ⟨h.hash.imp (hRS 32), h.le, h.pending.imp (hRS 8)⟩

/-- Only the hash and the pending bytes matter. -/
theorem Reads.congr {d' : Digest} (h : d.Reads R m) (hhash : d'.hash = d.hash)
    (hpending : d'.pending = d.pending) : d'.Reads R m := by
  obtain ⟨n, hn⟩ := h
  exact ⟨n, hhash ▸ hn.hash, hn.le, hpending ▸ hn.pending⟩

theorem reads_startAt (hconst : ∀ v, R 32 (.constant (Bits.cell v)) v) (ops : Nat) :
    (startAt ops).Reads R [] := by
  refine ⟨0, fun i hi => ?_, Nat.le_refl 0, List.Forall₂.nil⟩
  have hword : (Standard.chain [] 0)[i] = Sha256.initialHash[i] := by
    show (Vector.ofFn fun i : Fin 8 => Standard.initialHash.getD i 0)[i] = _
    rw [Vector.getElem_ofFn, Standard.initialHash_eq]
    simp [hi]
  rw [hword]
  show R 32 (Sha256.initialHash.map _)[i] _
  rw [Vector.getElem_map]
  exact hconst _

/-- What was absorbed and what is pending is the message. -/
theorem Absorbed.size (h : d.Absorbed R m n) : 64 * n + d.pending.size = m.length := by
  have hlength := h.pending.length_eq
  rw [List.length_drop, Array.length_toList] at hlength
  have hle := h.le
  omega

/-- One more byte is pending. -/
theorem Absorbed.push (h : d.Absorbed R m n) {b : Byte} {v : BitVec 8} (hb : R 8 b v) :
    (d.push b).Absorbed R (m ++ [v]) n where
  hash := by
    rw [Standard.chain_append [v] h.le]
    exact h.hash
  le := by
    rw [List.length_append]
    exact h.le.trans (Nat.le_add_right _ _)
  pending := by
    show List.Forall₂ (R 8) (d.pending.push b).toList _
    rw [Array.toList_push, List.drop_append_of_le_length h.le]
    exact List.rel_append h.pending (List.Forall₂.cons hb List.Forall₂.nil)

/-- The pending bytes, when they fill a block, are the next block. -/
theorem Absorbed.block (h : d.Absorbed R m n) (hfull : d.pending.size = 64) :
    Each (R 8) ⟨d.pending, hfull⟩ (Standard.blockAt m n) := by
  refine Each.of_forall₂ ?_
  have hlength := h.size
  rw [Standard.toList_blockAt (by omega)]
  exact h.pending

/-- A full block joins those in the hash. -/
theorem Absorbed.absorbed (h : d.Absorbed R m n) (hfull : d.pending.size = 64)
    {hash : Vector Word 8}
    (hhash : Each (R 32) hash (Standard.compress (Standard.chain m n) (Standard.blockAt m n))) :
    (d.absorbed hash).Absorbed R m (n + 1) := by
  have hlength := h.size
  refine ⟨hhash, by omega, ?_⟩
  rw [List.drop_eq_nil_of_le (by omega)]
  exact List.Forall₂.nil

/-- With nothing pending all of the bytes are in the hash. -/
theorem Reads.chain (h : d.Reads R m) (hsize : d.pending.size = 0) :
    Each (R 32) d.hash (Standard.chain m (m.length / 64)) := by
  obtain ⟨n, hn⟩ := h
  have hlength := hn.size
  have hall : m.length / 64 = n := by omega
  rw [hall]
  exact hn.hash

end Reads

/-- The digest reads as `m` under an assignment. -/
abbrev Is [Modulus p] (z : Variable → Fp p) (d : Digest) (m : List (BitVec 8)) : Prop :=
  d.Reads (fun _ => Bits.Is z) m

/-- The digest has the bytes `m`, and reads as them. -/
abbrev Live [Modulus p] (t : Witness p) (d : Digest) (m : List (BitVec 8)) : Prop :=
  d.Reads (fun _ => Bits.Live t) m

/-- A new digest reads as no bytes. -/
theorem is_new [Modulus p] {z : Variable → Fp p} (one : z .one = 1) : new.Is z [] :=
  reads_startAt (fun v => Bits.reads_constant (Bit.val_const one) v) 0

/-- A new digest has no bytes. -/
theorem live_new [Modulus p] (t : Witness p) : new.Live t [] :=
  reads_startAt (fun v => Bits.live_constant t v) 0

end Digest

/-- Hashing numbers is writing to a new digest, then taking its sum. -/
theorem sha256_eq [Modulus p] (ignore : LinNum p) (data : List (Num p)) :
    sha256 ignore data = Prod.fst <$>
      (Build.within "write" (Hashing.on .new (Digest.writeNums data)) >>= fun a =>
        Build.within "sum" (Hashing.on a.2 (Digest.sum ignore))) := by
  rw [sha256]
  rw [Hashing.run_eq, Hashing.on_bind, Hashing.on_within]
  refine congrArg (fun f => Prod.fst <$> (_ >>= f)) (funext fun a => ?_)
  exact Hashing.on_within _ _ _

end RankOne.Sha256
