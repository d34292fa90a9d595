import RankOne.Proofs.Pairing
import RankOne.Proofs.Primes
import RankOne.Proofs.Sha256.Comparison
import RankOne.Proofs.Sha256.Completeness

/-!
# Streaming — a message in any number of pieces

    A session writes a message to a new digest, piece by piece, each as bytes
    or as numbers, and then takes its sum.  Wherever the message is cut, the
    sum is the hash of the whole; the session compiles and solves side by side,
    and what was solved satisfies what was compiled.
-/

namespace RankOne.Sha256

open Build Hashing

variable {p : Nat}

/-! ## Runs alike -/

section Follows

variable [Modulus p] {m m' : Mode} [Mode.AsksLess m m']

/-- What a call on a digest gives, and the digest that it leaves, follow those
    of the same call on another. -/
def Hashing.follows (m m' : Mode) [Mode.AsksLess m m'] :
    Hashing.Comparison (.follows (p := p) m m') where
  rel x y R := ∀ d d' : Digest, d.Alike m d' →
    Follows m m' (on d x) (on d' y) fun a b => R a.1 b.1 ∧ a.2.Alike m b.2
  pure h d d' hd := Follows.pure ⟨h, hd⟩
  throw e R d d' hd := Follows.throw
  bind hx hfg d d' hd := by
    rw [on_bind, on_bind]
    exact (hx d d' hd).bind fun a b hab => hfg a.1 b.1 hab.1 a.2 b.2 hab.2
  within hx d d' hd := by
    rw [on_within, on_within]
    exact (hx d d' hd).within
  lift hx d d' hd := by
    rw [on_lift, on_lift]
    exact Follows.map (Follows.mapError (Follows.mono hx fun a b hab => ⟨hab, hd⟩))
  digest d d' hd := Follows.pure ⟨Digest.like_alike.mpr hd, hd⟩
  change hfg d d' hd :=
    Follows.pure ⟨trivial, Digest.like_alike.mp (hfg d d' (Digest.like_alike.mpr hd))⟩

namespace Digest

variable {d d' : Digest}

theorem follows_write {bytes bytes' : List Byte} (h : d.Alike m d')
    (hbytes : List.Forall₂ (Bits.Alike m) bytes bytes') :
    Follows m m' (on d (write bytes : Hashing p Nat)) (on d' (write bytes'))
      fun a a' => a.1 = a'.1 ∧ a.2.Alike m a'.2 :=
  compare_write (Hashing.follows m m') hbytes d d' h

theorem follows_writeNums {xs xs' : List (Num p)} (h : d.Alike m d')
    (hxs : List.Forall₂ (Num.Alike m) xs xs') :
    Follows m m' (on d (writeNums xs)) (on d' (writeNums xs'))
      fun a a' => a.1 = a'.1 ∧ a.2.Alike m a'.2 :=
  compare_writeNums (Hashing.follows m m') hxs d d' h

theorem follows_sumBytes {ignore ignore' : LinNum p} (h : d.Alike m d')
    (hignore : ignore.Alike m ignore') :
    Follows m m' (on d (sumBytes ignore)) (on d' (sumBytes ignore'))
      fun a a' => Each (Bits.Alike m) a.1 a'.1 ∧ a.2.Alike m a'.2 :=
  compare_sumBytes (Hashing.follows m m') (alike_lengthField hignore) d d' h

theorem follows_sum {ignore ignore' : LinNum p} (h : d.Alike m d')
    (hignore : ignore.Alike m ignore') :
    Follows m m' (on d (sum ignore)) (on d' (sum ignore')) fun a a' => a.1.Alike m a'.1 :=
  Follows.mono (compare_sum (Hashing.follows m m') (alike_lengthField hignore) d d' h)
    fun _ _ ha => ha.1

end Digest

theorem follows_sha256 {ignore ignore' : LinNum p} {data data' : List (Num p)}
    (hignore : ignore.Alike m ignore') (hdata : List.Forall₂ (Num.Alike m) data data') :
    Follows m m' (sha256 ignore data) (sha256 ignore' data') (Num.Alike m) := by
  rw [sha256_eq, sha256_eq]
  refine Follows.map ?_
  refine (Digest.follows_writeNums (Digest.alike_refl m .new) hdata).within.bind fun a a' ha => ?_
  exact (Digest.follows_sum ha.2 hignore).within

end Follows

/-! ## Sessions -/

/-- A piece of a message, as it is given to one call. -/
inductive Chunk (p : Nat) where
  | bytes (bs : List Byte)
  | nums (xs : List (Num p))

namespace Chunk

/-- The piece has the bytes `vs`, and its variables are worth them. -/
inductive Holds [Modulus p] (w : Witness p) : Chunk p → List (BitVec 8) → Prop where
  | bytes {bs : List Byte} {vs : List (BitVec 8)} (h : List.Forall₂ (Bits.Live w) bs vs) :
      Holds w (.bytes bs) vs
  | nums {xs : List (Num p)} {vs : List (BitVec 8)} (h : Digest.Hold w xs vs) :
      Holds w (.nums xs) vs

/-- The same piece, in two runs. -/
inductive Alike (m : Mode) : Chunk p → Chunk p → Prop where
  | bytes {bs bs' : List Byte} (h : List.Forall₂ (Bits.Alike m) bs bs') :
      Alike m (.bytes bs) (.bytes bs')
  | nums {xs xs' : List (Num p)} (h : List.Forall₂ (Num.Alike m) xs xs') :
      Alike m (.nums xs) (.nums xs')

theorem alike_refl (m : Mode) : (c : Chunk p) → c.Alike m c
  | .bytes _ => .bytes (List.forall₂_same.mpr fun _ _ => Bits.alike_refl m _)
  | .nums _ => .nums (List.forall₂_same.mpr fun _ _ => ⟨rfl, Or.inr rfl, fun _ => rfl⟩)

theorem Holds.later [Modulus p] {w w' : Witness p} {c : Chunk p} {vs : List (BitVec 8)}
    (hle : w ≤ w') (h : c.Holds w vs) : c.Holds w' vs := by
  cases h with
  | bytes h => exact .bytes (h.imp fun _ _ hx => hx.mono hle)
  | nums h => exact .nums (h.imp fun _ _ hx => hx.mono hle)

end Chunk

variable [Modulus p]

/-- The call that writes a piece. -/
def writeChunk : Chunk p → Hashing p Nat
  | .bytes bs => Digest.write bs
  | .nums xs => Digest.writeNums xs

/-- The calls that write pieces, in order. -/
def writeChunks : List (Chunk p) → Hashing p Unit
  | [] => return ()
  | c :: rest => do
    let _ ← writeChunk c
    writeChunks rest

/-- Writes the pieces of a message to a new digest, and finishes. -/
def session (chunks : List (Chunk p)) (finish : Hashing p α) : Build p GadgetError α :=
  Hashing.run .new do
    writeChunks chunks
    finish

/-- A session is its writes and what finishes it. -/
theorem session_eq (chunks : List (Chunk p)) (finish : Hashing p α) :
    session chunks finish
      = Prod.fst <$> (on .new (writeChunks chunks) >>= fun a => on a.2 finish) := by
  rw [session, run_eq, on_bind]

/-- Chunks are written one by one. -/
theorem on_writeChunks_cons (d : Digest) (c : Chunk p) (rest : List (Chunk p)) :
    on d (writeChunks (c :: rest))
      = on d (writeChunk c) >>= fun a => on a.2 (writeChunks rest) :=
  on_bind _ _ _

/-- The number of bytes of a piece. -/
def Chunk.length : Chunk p → Nat
  | .bytes bs => bs.length
  | .nums xs => xs.length

/-- A chunk has as many bytes as it holds. -/
theorem Chunk.Holds.length_eq {w : Witness p} {c : Chunk p} {vs : List (BitVec 8)}
    (h : c.Holds w vs) : c.length = vs.length := by
  cases h with
  | bytes h => exact h.length_eq
  | nums h => exact h.length_eq

/-- A digest that takes more bytes after the first `n`: it is open, and what is
    pending is what the length leaves over. -/
structure Digest.Open (d : Digest) (n : Nat) : Prop where
  length : d.length = n
  aligned : d.Aligned
  stage : d.stage ≠ .finalized

/-- A write leaves an open digest open, with a greater length. -/
theorem Digest.Open.grown {d d' : Digest} {n k : Nat} (h : d.Open n)
    (h' : (d.expecting k).Grown k d') : d'.Open (n + k) where
  length := h'.length.trans (congrArg (· + k) h.length)
  aligned := h.aligned.grown h'
  stage := by
    rw [h'.stage]
    nofun

theorem Digest.open_new : Digest.new.Open 0 := ⟨rfl, rfl, nofun⟩

/-- Either kind of chunk adds its number of bytes to the length. -/
theorem gives_writeChunk (c : Chunk p) {d : Digest} {n : Nat} (h : d.Open n) :
    Gives (on d (writeChunk c)) fun a => a.2.Open (n + c.length) := by
  cases c with
  | bytes bs => exact (Digest.gives_write bs h.aligned.lt).mono fun _ hgrown => h.grown hgrown
  | nums xs =>
      have hnext : d.numbered.Open n := ⟨h.length, h.aligned, h.stage⟩
      exact (Digest.gives_writeNums xs h.aligned.lt).mono fun _ hgrown => hnext.grown hgrown

/-- Where a message is cut makes no difference to what a digest has read. -/
theorem honest_writeChunks (hcap : 64 ≤ Fp.capacity p) {t : Witness p} {d : Digest}
    {m : List (BitVec 8)} {chunks : List (Chunk p)} {parts : List (List (BitVec 8))}
    (hopen : d.Open m.length) (hd : d.Live t m)
    (hparts : List.Forall₂ (Chunk.Holds t) chunks parts) :
    Honest t (on d (writeChunks chunks)) fun t' a =>
      a.2.Live t' (m ++ parts.flatten) ∧ a.2.Open (m ++ parts.flatten).length := by
  induction chunks generalizing t d m parts with
  | nil =>
      obtain rfl := List.forall₂_nil_left_iff.mp hparts
      rw [List.flatten_nil, List.append_nil]
      exact Honest.pure fun t' hle => ⟨hd.later hle, hopen⟩
  | cons c rest ih =>
      obtain ⟨vs, parts, hc, hrest, rfl⟩ := List.forall₂_cons_left_iff.mp hparts
      have hchunk : Honest t (on d (writeChunk c)) fun t' a => a.2.Live t' (m ++ vs) := by
        cases hc with
        | bytes h => exact Digest.honest_write hcap hopen.stage hd h
        | nums h => exact Digest.honest_writeNums hcap hopen.stage hd h
      rw [on_writeChunks_cons, List.flatten_cons, ← List.append_assoc]
      -- an open digest stays open, and its length is that of what was written so far
      refine (hchunk.and_gives (gives_writeChunk c hopen)).bind fun t' a hle ⟨ha, hopen'⟩ => ?_
      rw [hc.length_eq, ← List.length_append] at hopen'
      exact ih hopen' ha (hrest.imp fun _ _ h => h.later hle)

/-- Chunks alike are written alike. -/
theorem follows_writeChunks {m m' : Mode} [Mode.AsksLess m m'] {d d' : Digest}
    {chunks chunks' : List (Chunk p)} (h : d.Alike m d')
    (hchunks : List.Forall₂ (Chunk.Alike m) chunks chunks') :
    Follows m m' (on d (writeChunks chunks)) (on d' (writeChunks chunks'))
      fun a a' => a.2.Alike m a'.2 := by
  induction hchunks generalizing d d' with
  | nil => exact Follows.pure h
  | @cons c c' _ _ hc _ ih =>
      have hchunk : Follows m m' (on d (writeChunk c)) (on d' (writeChunk c'))
          fun a a' => a.2.Alike m a'.2 := by
        cases hc with
        | bytes hbytes => exact (Digest.follows_write h hbytes).mono fun _ _ ha => ha.2
        | nums hnums => exact (Digest.follows_writeNums h hnums).mono fun _ _ ha => ha.2
      rw [on_writeChunks_cons, on_writeChunks_cons]
      exact hchunk.bind fun a a' ha => ih ha

/-- Chunks take adjacent ranges of operation numbers. -/
theorem takes_writeChunks (hcap : 64 ≤ Fp.capacity p) (chunks : List (Chunk p)) {d : Digest}
    {n : Nat} (h : d.Open n) :
    Takes d.ops (on d (writeChunks chunks)) (·.2.ops) fun a => ∃ n', a.2.Open n' := by
  induction chunks generalizing d n with
  | nil => exact Takes.pure le_rfl ⟨n, h⟩
  | cons c rest ih =>
      have hchunk : Takes d.ops (on d (writeChunk c)) (·.2.ops) fun _ => True := by
        cases c with
        | bytes bs =>
            exact (Digest.takes_write hcap bs h.stage h.aligned.lt).mono fun _ _ => trivial
        | nums xs =>
            exact (Digest.takes_writeNums hcap xs h.stage h.aligned.lt).mono fun _ _ => trivial
      rw [on_writeChunks_cons]
      exact (hchunk.and_gives (gives_writeChunk c h)).bind fun a ha => ih ha.2

/-- The digest that a session leaves before it finishes, in every run. -/
theorem honest_session {t : Witness p} (hcap : 64 ≤ Fp.capacity p) {chunks : List (Chunk p)}
    {parts : List (List (BitVec 8))} {finish : Hashing p α} {Q : Witness p → α → Prop}
    (hparts : List.Forall₂ (Chunk.Holds t) chunks parts)
    (hfinish : ∀ t' d, t ≤ t' → d.Live t' parts.flatten → d.Open parts.flatten.length →
      Honest t' (on d finish) fun t'' a => Q t'' a.1) :
    Honest t (session chunks finish) Q := by
  have hnew : Digest.new.Live t [] := Digest.live_new t
  rw [session_eq]
  refine Honest.map ?_
  refine (honest_writeChunks hcap Digest.open_new hnew hparts).bind fun t' a hle ⟨hd, hopen⟩ => ?_
  exact hfinish t' a.2 hle hd hopen

/-- Sessions of chunks alike run alike. -/
theorem follows_session {m m' : Mode} [Mode.AsksLess m m'] {chunks chunks' : List (Chunk p)}
    {finish finish' : Hashing p α} {R : α → α → Prop}
    (hchunks : List.Forall₂ (Chunk.Alike m) chunks chunks')
    (hfinish : ∀ d d' : Digest, d.Alike m d' →
      Follows m m' (on d finish) (on d' finish') fun a a' => R a.1 a'.1) :
    Follows m m' (session chunks finish) (session chunks' finish') R := by
  rw [session_eq, session_eq]
  refine Follows.map ?_
  exact (follows_writeChunks (Digest.alike_refl m .new) hchunks).bind fun a a' => hfinish a.2 a'.2

/-- A session compiles wherever no name of a digest was given. -/
theorem labelled_session (hcap : 64 ≤ Fp.capacity p) (chunks : List (Chunk p))
    {finish : Hashing p α}
    (hfinish : ∀ d n, d.Open n → Takes d.ops (on d finish) (·.2.ops) fun _ => True) :
    Labelled Digest.stems (session chunks finish) fun _ => True := by
  rw [session_eq]
  exact ((takes_writeChunks hcap chunks Digest.open_new).bind
    fun a ⟨n, h⟩ => hfinish a.2 n h).labelled

/-- Streaming computes the hash of the whole message: however it is cut into
    pieces, both sums succeed on the values, give the standard's hash with a
    length less what is ignored, and are accepted by the shape of the same
    calls. -/
theorem sessions_exact (hcap : 64 ≤ Fp.capacity p) {s u : System p}
    (hready : System.Ready Digest.stems s u)
    {blank chunks : List (Chunk p)} {parts : List (List (BitVec 8))}
    (hblank : List.Forall₂ (Chunk.Alike .compiling) blank chunks)
    (hparts : List.Forall₂ (Chunk.Holds u.witness) chunks parts) {unknown ignore : LinNum p}
    (hunknown : unknown.comb = ignore.comb) {k : Nat} (hk : ignore.Live u.witness (k : Fp p))
    (hle : k ≤ parts.flatten.length) (hlt : parts.flatten.length < 2 ^ 61) :
    Accepted s u (session blank (Digest.sumBytes unknown)) (session chunks (Digest.sumBytes ignore))
        (fun w bytes => Each (Bits.Live w) bytes
          (Standard.digest parts.flatten (8 * (parts.flatten.length - k)))) ∧
      Accepted s u (session blank (Digest.sum unknown)) (session chunks (Digest.sum ignore))
        fun w x => x.Live w ((Standard.bigEndian (Standard.digest parts.flatten
          (8 * (parts.flatten.length - k))).toList : Nat) : Fp p) := by
  have hignore : unknown.Alike .compiling ignore := ⟨hunknown, Bool.false_ne_true.elim⟩
  have hself : ignore.Alike .solving ignore := ⟨rfl, fun _ => rfl⟩
  have hchunks : List.Forall₂ (Chunk.Alike .solving) chunks chunks :=
    List.forall₂_same.mpr fun c _ => c.alike_refl _
  constructor
  · refine Honest.accepted (honest_session hcap hparts fun t' d ht hd h => ?_)
      (follows_session hblank fun d d' h => (Digest.follows_sumBytes h hignore).mono
        fun _ _ ha => ha.1)
      (follows_session hchunks fun d d' h => (Digest.follows_sumBytes h hself).mono ?_)
      (labelled_session hcap blank
        fun d _ h => Digest.takes_sumBytes (d := d) hcap unknown h.stage h.aligned) hready
    · exact Digest.honest_sumBytes hcap h.stage h.aligned hd h.length (hk.mono ht) hle hlt
    -- bytes alike in a run that solves are the same bytes
    · rintro a a' ⟨ha, _⟩
      exact Vector.ext fun i hi => (ha i hi).eq rfl
  · refine Honest.accepted (honest_session hcap hparts fun t' d ht hd h => ?_)
      (follows_session hblank fun d d' h => Digest.follows_sum h hignore)
      (follows_session hchunks fun d d' h => (Digest.follows_sum h hself).mono ?_)
      (labelled_session hcap blank
        fun d _ h => Digest.takes_sum (d := d) hcap unknown h.stage h.aligned) hready
    · exact Digest.honest_sum hcap h.stage h.aligned hd h.length (hk.mono ht) hle hlt
    · rintro ⟨⟨x, v⟩, _⟩ ⟨⟨x', v'⟩, _⟩ ha
      obtain rfl : x = x' := ha.var
      obtain rfl : v = v' := ha.solved rfl
      rfl

/-- The letters `abc` in three calls: two constants, nothing, and a variable. -/
def letters (c : Option (Fp Moduli.bn256)) : List (Chunk Moduli.bn256) :=
  [.bytes [.constant 0x61, .constant 0x62], .bytes [], .nums [⟨.aux 0, c⟩]]

theorem sessions_exact_abc :
    Accepted { System.start with numAux := 1 } { System.start with numAux := 1, aux := #[0x63] }
      (session (letters none) (Digest.sum (.const 0)))
      (session (letters (some 0x63)) (Digest.sum (.const 0))) fun w x => x.Live w
        (Fp.ofNat 0xba7816bf8f01cfea414140de5dae2223b00361a396177a9cb410ff61f20015ad) := by
  have hready : System.Ready (p := Moduli.bn256) Digest.stems { System.start with numAux := 1 }
      { System.start with numAux := 1, aux := #[0x63] } := by
    refine ⟨⟨rfl, rfl, rfl, rfl⟩, fun z _ row hrow => ?_, rfl, rfl, ?_⟩
    · simp [System.start] at hrow
    · exact fun l hl => Naming.not_mem_start fun heq => absurd (heq ▸ hl) (by decide)
  have hblank : List.Forall₂ (Chunk.Alike .compiling) (letters none) (letters (some 0x63)) := by
    refine .cons (Chunk.alike_refl _ _) (.cons (Chunk.alike_refl _ _) (.cons (.nums ?_) .nil))
    exact .cons ⟨rfl, Or.inl rfl, Bool.false_ne_true.elim⟩ .nil
  have hparts : List.Forall₂ (Chunk.Holds ⟨#[0x63], #[1]⟩) (letters (some 0x63))
      [[0x61, 0x62], [], [0x63]] := by
    refine .cons (.bytes ?_) (.cons (.bytes .nil) (.cons (.nums ?_) .nil))
    · exact .cons (Bits.live_constant _ 0x61#8) (.cons (Bits.live_constant _ 0x62#8) .nil)
    · refine .cons ⟨rfl, fun z hz => ?_⟩ .nil
      rw [Num.lc, LinComb.eval_ofVar]
      exact hz.aux 0 _ rfl
  have hhash : Standard.bigEndian (Standard.digest [0x61, 0x62, 0x63] 24).toList
      = 0xba7816bf8f01cfea414140de5dae2223b00361a396177a9cb410ff61f20015ad := by decide +kernel
  obtain ⟨_, hsum⟩ := sessions_exact (p := Moduli.bn256) (k := 0) (by decide) hready hblank hparts
    (rfl : (LinNum.const 0).comb = (LinNum.const 0).comb) (LinNum.live_const 0) (Nat.zero_le _)
    (by decide)
  rw [← hhash]
  exact hsum

end RankOne.Sha256
