import RankOne.Proofs.Caches
import RankOne.Proofs.Sha256.Outcomes

/-!
# Caches — the words and bytes that a digest holds

    A digest holds words and bytes from one call to the next, and a call may
    fail in between.  Whatever comes of a call, the digest that it leaves holds
    sound integers when the one that it found did: a new hash is made of sums,
    and what is pending was written.
-/

namespace RankOne.Sha256

open Build

variable {p : Nat} {α β : Type} {m : Mode}

/-- Every word and every byte in the digest is sound. -/
structure Digest.Sound (m : Mode) (d : Digest) : Prop where
  hash : ∀ x ∈ d.hash, x.Sound m
  pending : ∀ x ∈ d.pending, x.Sound m

/-- From a sound digest a run leaves a sound one, also where it fails, and what
    it gives has `Q`. -/
def Hashing.Sound (m : Mode) (body : Hashing p α) (Q : α → Prop) : Prop :=
  ∀ (d : Digest) (s : System p), d.Sound m →
    Leads m (d, s) body (fun a c => Q a ∧ c.1.Sound m) fun _ c => c.1.Sound m

namespace Hashing.Sound

/-- A result may be said to have less. -/
theorem mono {body : Hashing p α} {Q R : α → Prop} (h : Hashing.Sound m body Q)
    (hQR : ∀ a, Q a → R a) : Hashing.Sound m body R :=
  fun d s hd => (h d s hd).mono (fun a _ ha => ⟨hQR a ha.1, ha.2⟩) fun _ _ he => he

theorem pure {a : α} {Q : α → Prop} (h : Q a) : Hashing.Sound m (pure a : Hashing p α) Q :=
  fun _ _ hd => .pure ⟨h, hd⟩

theorem throw (e : GadgetError) (Q : α → Prop) :
    Hashing.Sound m (throw e : Hashing p α) Q :=
  fun _ _ hd => .throw hd

/-- What comes second finds the sound digest that comes first left. -/
theorem bind {x : Hashing p α} {f : α → Hashing p β} {Q : α → Prop} {R : β → Prop}
    (hx : Hashing.Sound m x Q) (hf : ∀ a, Q a → Hashing.Sound m (f a) R) :
    Hashing.Sound m (x >>= f) R :=
  fun d s hd => (hx d s hd).bind fun a c ha => hf a ha.1 c.1 c.2 ha.2

/-- A namespace touches neither words nor bytes. -/
theorem within {name : String} {body : Hashing p α} {Q : α → Prop}
    (h : Hashing.Sound m body Q) : Hashing.Sound m (Hashing.within name body) Q :=
  fun d _ hd => .within (h d _ hd)

theorem inside {body : Hashing p α} {Q : α → Prop} (h : Hashing.Sound m body Q) :
    (path : List String) → Hashing.Sound m (Hashing.inside path body) Q
  | [] => h
  | _ :: path => (Hashing.Sound.inside h path).within

/-- A circuit without a digest leaves the digest as it was. -/
theorem lift {body : Build p SynthesisError α} {Q : α → Prop} (h : GivesIn m body Q) :
    Hashing.Sound m (Hashing.lift body) Q := by
  intro d s hd
  refine Leads.lift (fun a s' hrun => ?_) fun _ _ _ => hd
  exact ⟨h s s' a hrun, hd⟩

/-- The digest that is read is the sound one. -/
theorem digest : Hashing.Sound m (Hashing.digest : Hashing p Digest) (Digest.Sound m) := by
  intro d s hd
  constructor
  · intro a c hrun
    cases hrun
    exact ⟨hd, hd⟩
  · intro e c hrun
    exact nomatch hrun

/-- A change has to keep the digest sound. -/
theorem change {f : Digest → Digest} (h : ∀ d, d.Sound m → (f d).Sound m) :
    Hashing.Sound m (Hashing.change f : Hashing p Unit) fun _ => True := by
  intro d s hd
  refine Leads.change ?_
  exact ⟨trivial, h d hd⟩

theorem ite {c : Prop} [Decidable c] {x y : Hashing p α} {Q : α → Prop}
    (hx : c → Hashing.Sound m x Q) (hy : ¬c → Hashing.Sound m y Q) :
    Hashing.Sound m (if c then x else y) Q := by
  split
  · next h => exact hx h
  · next h => exact hy h

end Hashing.Sound

variable [Modulus p]

/-- A hash is made of sums, whose caches are read off their digits: what the
    block and the rounds hold does not matter. -/
theorem sound_compress (hash : Vector Word 8) (block : Vector Byte 64) :
    GivesIn m (compress (p := p) hash block) fun r => ∀ x ∈ r, x.Sound m := by
  refine (GivesIn.any _).bind fun words _ => (GivesIn.any _).bind fun r _ => ?_
  refine (GivesIn.tabulate fun i : Fin 8 => (Bits.sound_addMany [hash[i], r[i]]).within).mono ?_
  exact fun out hout => Vector.forall_mem_iff_forall_getElem.mpr hout

namespace Digest

/-- The words that a digest begins with are constants. -/
theorem sound_startAt (ops : Nat) : (startAt ops).Sound m where
  hash x hx := by
    obtain ⟨v, _, rfl⟩ := Vector.mem_map.mp hx
    exact Bits.sound_constant (Bits.cell v)
  pending _ hx := absurd hx (Array.not_mem_empty _)

omit [Modulus p] in
/-- To ask whether a digest is open changes nothing. -/
theorem sound_ensureOpen : Hashing.Sound m (ensureOpen : Hashing p Unit) fun _ => True :=
  Hashing.Sound.digest.bind fun _ _ => .ite (fun _ => .throw _ _) fun _ => .pure trivial

/-- Only the hash and the pending bytes matter. -/
theorem Sound.congr {d d' : Digest} (h : d.Sound m) (hhash : d'.hash = d.hash)
    (hpending : d'.pending = d.pending) : d'.Sound m :=
  ⟨hhash ▸ h.hash, hpending ▸ h.pending⟩

omit [Modulus p] in
/-- The number of the next operation is no word. -/
theorem sound_nextOp : Hashing.Sound m (nextOp : Hashing p Nat) fun _ => True := by
  refine Hashing.Sound.digest.bind fun d _ => ?_
  refine Hashing.Sound.bind (.change fun c hc => ?_) fun _ _ => .pure trivial
  exact hc.congr rfl rfl

/-- A full block makes way for the hash of it, whose words are sound whatever
    they are made of. -/
theorem sound_absorbFull : Hashing.Sound m (absorbFull : Hashing p Unit) fun _ => True := by
  refine Hashing.Sound.digest.bind fun d _ => ?_
  split
  · refine sound_nextOp.bind fun op _ => ?_
    refine Hashing.Sound.bind (.change fun c hc => ?_) fun _ _ => ?_
    · exact ⟨hc.hash, fun x hx => absurd hx (Array.not_mem_empty x)⟩
    refine (Hashing.Sound.lift (sound_compress _ _)).within.bind fun hash hhash => ?_
    exact .change fun c hc => ⟨hhash, hc.pending⟩
  · exact .pure trivial

/-- By induction on the bytes: each is pending at first, and may fill a
    block. -/
theorem sound_absorb (bytes : List Byte) (h : ∀ b ∈ bytes, b.Sound m) :
    Hashing.Sound m (absorb bytes : Hashing p Unit) fun _ => True := by
  induction bytes with
  | nil => exact .pure trivial
  | cons b rest ih =>
      obtain ⟨hb, hrest⟩ := List.forall_mem_cons.mp h
      refine Hashing.Sound.bind (.change fun d hd => ?_) fun _ _ =>
        sound_absorbFull.bind fun _ _ => ih hrest
      refine ⟨hd.hash, fun x hx => ?_⟩
      rcases Array.mem_push.mp hx with hx | rfl
      · exact hd.pending x hx
      · exact hb

/-- Sound bytes may be written. -/
theorem sound_write (bytes : List Byte) (h : ∀ b ∈ bytes, b.Sound m) :
    Hashing.Sound m (write bytes : Hashing p Nat) fun _ => True := by
  refine sound_ensureOpen.bind fun _ _ => ?_
  refine Hashing.Sound.bind (.change fun d hd => ?_) fun _ _ =>
    (sound_absorb bytes h).bind fun _ _ => .pure trivial
  exact hd.congr rfl rfl

/-- Bytes that are split off numbers have integers that are read off their
    digits. -/
theorem sound_bytesOf (op : Nat) (xs : List (Num p)) :
    GivesIn m (bytesOf op xs) fun bytes => ∀ b ∈ bytes, b.Sound m := by
  have hbytes : GivesIn m (bytesOf op xs) fun bytes =>
      List.Forall₂ (fun _ b => Bits.Sound m b) xs.zipIdx bytes :=
    GivesIn.listMapM xs.zipIdx fun x => (Bits.sound_fromNum x.1).within
  refine hbytes.mono fun bytes h b hb => ?_
  obtain ⟨_, _, hsound⟩ := exists_mem_of_forall₂ h.flip hb
  exact hsound

theorem sound_writeNums (xs : List (Num p)) :
    Hashing.Sound m (writeNums xs) fun _ => True := by
  refine sound_ensureOpen.bind fun _ _ => sound_nextOp.bind fun op _ => ?_
  exact (Hashing.Sound.lift (sound_bytesOf op xs)).bind fun bytes hbytes => sound_write bytes hbytes

/-- Padding is made of constants. -/
theorem sound_padding (length : Nat) : ∀ b ∈ padding length, b.Sound m := by
  refine List.forall_mem_cons.mpr ⟨Bits.sound_constant 0x80, fun b hb => ?_⟩
  rw [List.eq_of_mem_replicate hb]
  exact Bits.sound_constant 0

/-- The bytes of the length are cut from told digits. -/
theorem sound_lengthBytes {bits : Vector Bit 64} (h : ∀ i (hi : i < 64), bits[i].Told m) :
    ∀ b ∈ lengthBytes bits, b.Sound m := by
  intro b hb
  obtain ⟨j, rfl⟩ := List.mem_ofFn.mp hb
  refine Bits.sound_ofBits fun i hi => ?_
  rw [Vector.getElem_ofFn]
  exact h _ _

/-- The bytes of a hash are cut from its words. -/
theorem sound_hashBytes {hash : Vector Word 8} (h : ∀ x ∈ hash, x.Sound m) :
    ∀ b ∈ hashBytes hash, b.Sound m := by
  refine Vector.forall_mem_iff_forall_getElem.mpr fun i hi => ?_
  rw [hashBytes, Vector.getElem_ofFn]
  exact Word.sound_toBytesBE (h _ (Vector.getElem_mem _)) _ _

/-- The sum of a sound digest is made of sound bytes, and whatever stops it
    leaves a sound digest. -/
theorem sound_sumBytes (ignore : LinNum p) :
    Hashing.Sound m (sumBytes ignore) fun bytes => ∀ b ∈ bytes, b.Sound m := by
  refine sound_ensureOpen.bind fun _ _ => sound_nextOp.bind fun op _ => ?_
  refine Hashing.Sound.digest.bind fun d _ => ?_
  refine (sound_write _ (sound_padding d.length)).within.bind fun _ _ => ?_
  refine (Hashing.Sound.lift (LinNum.told_toBits _ 64)).within.bind fun bits hbits => ?_
  refine (sound_write _ (sound_lengthBytes hbits)).within.bind fun _ _ => ?_
  refine Hashing.Sound.digest.bind fun d _ => .ite (fun _ => ?_) fun _ => ?_
  · exact (Hashing.Sound.throw _ fun _ => False).bind fun _ hfalse => hfalse.elim
  refine Hashing.Sound.bind (.change fun d hd => ?_) fun _ _ =>
    Hashing.Sound.digest.bind fun d hd => .pure (sound_hashBytes hd.hash)
  exact hd.congr rfl rfl

/-- The sum as a number leaves a sound digest likewise. -/
theorem sound_sum (ignore : LinNum p) : Hashing.Sound m (sum ignore) fun _ => True := by
  refine (sound_sumBytes ignore).bind fun bytes _ => sound_nextOp.bind fun op _ => ?_
  exact (Hashing.Sound.lift (GivesIn.any _)).within

end Digest

end RankOne.Sha256
