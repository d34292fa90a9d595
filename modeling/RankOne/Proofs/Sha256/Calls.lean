import RankOne.Proofs.Sha256.Outcomes
import RankOne.Proofs.Sha256.Streaming

/-!
# Calls — the life of a digest

    A digest is called any number of times, and a call may fail.  Nothing is
    taken back then: what a failed call leaves is `Failed`, one case for each
    way to fail, and only two of them leave the digest as it was.

    `Received mode d m` are the digests that calls lead to when none failed in
    another way than those two, with the bytes `m` that were passed in since
    the last reset.  One invariant of them, kept by every call, says what the
    buffer, the counter and the hash are.
-/

namespace RankOne.Sha256

open Build Hashing

variable {p : Nat} [Modulus p]

/-! ## Calls and their outcomes -/

/-- A call on a digest. -/
inductive Call (p : Nat) where
  | write (bytes : List Byte)
  | writeNums (xs : List (Num p))
  | sumBytes (ignore : LinNum p)
  | sum (ignore : LinNum p)

/-- What a call gives. -/
inductive Reply (p : Nat) where
  | count (n : Nat)
  | bytes (bs : Vector Byte 32)
  | num (x : Num p)

namespace Call

/-- The circuit of a call. -/
def perform : Call p → Hashing p (Reply p)
  | .write bytes => return .count (← Digest.write bytes)
  | .writeNums xs => return .count (← Digest.writeNums xs)
  | .sumBytes ignore => return .bytes (← Digest.sumBytes ignore)
  | .sum ignore => return .num (← Digest.sum ignore)

/-- The call takes a sum. -/
def IsSum : Call p → Prop
  | .write _ | .writeNums _ => False
  | .sumBytes _ | .sum _ => True

/-- The bytes that a call passes in, which numbers have to be taken apart for. -/
def passes (mode : Mode) (d : Digest) (s : System p) : Call p → Option (List Byte)
  | .write bytes => some bytes
  | .writeNums xs =>
    match Digest.bytesOf d.ops xs mode s with
    | .ok bytes _ => some bytes
    | .error _ _ => none
  | .sumBytes _ | .sum _ => some []

end Call

/-- Everything but the operation number is as it was. -/
structure Digest.Kept (d d' : Digest) : Prop where
  hash : d'.hash = d.hash
  pending : d'.pending = d.pending
  length : d'.length = d.length
  stage : d'.stage = d.stage

/-- The ways to fail: on a digest that is finalized, which changes nothing; on
    numbers that cannot be taken apart, which costs an operation number; and
    later, when bytes have been counted already. -/
inductive Failed (mode : Mode) (d : Digest) (s : System p) (call : Call p) :
    GadgetError → Digest × System p → Prop where
  | refused (hstage : d.stage = .finalized) : Failed mode d s call .digestFinalized (d, s)
  | undigested {e : GadgetError} {s' : System p} (he : Digest.Fails e)
      (hnone : call.passes mode d s = none) : Failed mode d s call e (d.numbered, s')
  | interrupted {e : GadgetError} {c : Digest × System p}
      (he : Digest.Fails e ∨ ¬d.Aligned ∧ ∃ n, e = .paddingInvariant n)
      (hsome : call.passes mode d s ≠ none) (hmore : d.length < c.1.length) :
      Failed mode d s call e c

/-- What calls that succeed make of a digest. -/
inductive Done (mode : Mode) (d : Digest) (s : System p) : Call p → Reply p → Digest → Prop where
  | wrote {bytes : List Byte} {n : Nat} {d' : Digest} (hwrote : d.Wrote p mode bytes d') :
      Done mode d s (.write bytes) (.count n) d'
  | wroteNums {xs : List (Num p)} {bytes : List Byte} {n : Nat} {d' : Digest}
      (hbytes : (Call.writeNums xs).passes mode d s = some bytes)
      (hwrote : d.numbered.Wrote p mode bytes d') : Done mode d s (.writeNums xs) (.count n) d'
  | summedBytes {ignore : LinNum p} {bs : Vector Byte 32} {d' : Digest}
      (hsum : Digest.Summed p mode ignore d bs d') :
      Done mode d s (.sumBytes ignore) (.bytes bs) d'
  | summed {ignore : LinNum p} {bs : Vector Byte 32} {d' : Digest} {x : Num p} {s₁ s₂ : System p}
      (hsum : Digest.Summed p mode ignore d bs d')
      (hpack : Num.ofBits (bs.toList.reverse.flatMap (·.bits.toList)) mode s₁ = .ok x s₂) :
      Done mode d s (.sum ignore) (.num x) d'.numbered

namespace Call

variable {mode : Mode} {d : Digest} {s : System p}

omit [Modulus p] in
/-- A call gives what its operation gives. -/
theorem perform_of_ok {α : Type} {x : Hashing p α} {g : α → Reply p} {a : α}
    {c c' : Digest × System p} (h : x mode c = .ok a c') :
    (x >>= fun a => pure (g a)) mode c = .ok (g a) c' := by
  rw [Leads.bind_apply, h]
  rfl

/-- A digest that is finalized refuses every call, and nothing changes. -/
theorem perform_finalized (h : d.stage = .finalized) (call : Call p) :
    call.perform mode (d, s) = .error .digestFinalized (d, s) := by
  have hrefuse : (Digest.ensureOpen : Hashing p Unit) mode (d, s)
      = .error .digestFinalized (d, s) := Digest.ensureOpen_of_finalized h
  cases call with
  | write bytes => simp only [perform, Digest.write, Leads.bind_apply, hrefuse]
  | writeNums xs => simp only [perform, Digest.writeNums, Leads.bind_apply, hrefuse]
  | sumBytes ignore => simp only [perform, Digest.sumBytes, Leads.bind_apply, hrefuse]
  | sum ignore =>
      simp only [perform, Digest.sum, Digest.sumBytes, Leads.bind_apply, hrefuse]

/-- Every call on any digest: what it makes of it, and what it leaves when it
    fails. -/
theorem leads_perform (call : Call p) : Leads mode (d, s) call.perform
    (fun r c => d.stage ≠ .finalized ∧ Done mode d s call r c.1) (Failed mode d s call) := by
  by_cases hstage : d.stage = .finalized
  · have hrun : call.perform mode (d, s) = .error .digestFinalized (d, s) :=
      call.perform_finalized hstage
    constructor
    · intro r c h
      exact nomatch hrun.symm.trans h
    · intro e c h
      cases hrun.symm.trans h
      exact .refused hstage
  · cases call with
    | write bytes =>
        refine ((Digest.leads_write hstage bytes).mono (fun _ _ h => h) fun e c h => ?_).bind ?_
        · exact .interrupted (.inl h.1) (Option.some_ne_none bytes) h.2
        · intro n c h
          exact .pure ⟨hstage, .wrote h⟩
    | writeNums xs =>
        refine ((Digest.leads_writeNums hstage xs).mono (fun _ _ h => h) ?_).bind ?_
        · rintro e ⟨d', s'⟩ ⟨he, ⟨e', s₁, hbytes, hsame⟩ | ⟨⟨bytes, s₁, hbytes⟩, hmore⟩⟩
          · obtain rfl : d' = d.numbered := hsame
            exact .undigested he (by rw [passes, hbytes])
          · exact .interrupted (.inl he) (by simp [passes, hbytes]) hmore
        · rintro n ⟨d', s'⟩ ⟨bytes, s₁, hbytes, hwrote⟩
          exact .pure ⟨hstage, .wroteNums (by rw [passes, hbytes]) hwrote⟩
    | sumBytes ignore =>
        refine ((Digest.leads_sumBytes hstage ignore).mono (fun _ _ h => h) fun e c h => ?_).bind ?_
        · exact .interrupted h.2 (Option.some_ne_none []) h.1
        · intro bs c h
          exact .pure ⟨hstage, .summedBytes h⟩
    | sum ignore =>
        refine ((Digest.leads_sum hstage ignore).mono (fun _ _ h => h) fun e c h => ?_).bind ?_
        · exact .interrupted h.2 (Option.some_ne_none []) h.1
        · rintro x ⟨_, s'⟩ ⟨bs, d', hsum, rfl, s₁, s₂, hpack⟩
          exact .pure ⟨hstage, .summed hsum hpack⟩

end Call

/-! ## What a digest has received -/

/-- The digests that calls lead to, with the bytes passed in since the last
    reset.  A call may fail where it leaves all but the operation number as it
    was; whatever became of a digest, a reset begins again. -/
inductive Received (p : Nat) [Modulus p] (mode : Mode) : Digest → List Byte → Prop where
  | new : Received p mode .new []
  | reset (d : Digest) : Received p mode d.reset []
  | done {d d' : Digest} {m bytes : List Byte} {s s' : System p} {call : Call p} {r : Reply p}
      (h : Received p mode d m) (hrun : call.perform mode (d, s) = .ok r (d', s'))
      (hbytes : call.passes mode d s = some bytes) : Received p mode d' (m ++ bytes)
  | refused {d d' : Digest} {m : List Byte} {s s' : System p} {call : Call p}
      (h : Received p mode d m)
      (hrun : call.perform mode (d, s) = .error .digestFinalized (d', s')) : Received p mode d' m
  | undigested {d d' : Digest} {m : List Byte} {s s' : System p} {call : Call p} {e : GadgetError}
      (h : Received p mode d m) (hrun : call.perform mode (d, s) = .error e (d', s'))
      (hnone : call.passes mode d s = none) : Received p mode d' m

/-- The invariant: an open digest holds what was passed in, and its buffer is
    in step with its length; a finalized one is at the end of a block. -/
structure Digest.Regular (p : Nat) [Modulus p] (mode : Mode) (d : Digest) (m : List Byte) :
    Prop where
  opened : d.stage ≠ .finalized → d.Open m.length ∧ d.Holds p mode m
  closed : d.stage = .finalized → d.pending = #[] ∧ d.length % 64 = 0

variable {mode : Mode} {d d' : Digest} {m bytes : List Byte} {s s' : System p} {call : Call p}
  {r : Reply p} {e : GadgetError}

theorem Digest.regular_startAt (ops : Nat) : (Digest.startAt ops).Regular p mode [] :=
  ⟨fun _ => ⟨⟨rfl, rfl, nofun⟩, holds_startAt ops⟩, nofun⟩

theorem Digest.Wrote.regular (hopen : d.Open m.length) (hholds : d.Holds p mode m)
    (h : d.Wrote p mode bytes d') : d'.Regular p mode (m ++ bytes) := by
  have hopen' : d'.Open (m ++ bytes).length := by
    rw [List.length_append]
    exact hopen.grown (h.grown hopen.aligned)
  refine ⟨fun _ => ⟨hopen', h.took.holds m (hholds.congr rfl rfl)⟩, fun hstage => ?_⟩
  exact absurd hstage hopen'.stage

theorem Digest.Summed.regular {ignore : LinNum p} {bs : Vector Byte 32}
    (h : Digest.Summed p mode ignore d bs d') : d'.Regular p mode m :=
  ⟨fun hstage => absurd h.stage hstage, fun _ => ⟨h.pending, h.length_mod⟩⟩

/-- A call that succeeds keeps the invariant. -/
theorem Done.regular (h : d.Regular p mode m) (hstage : d.stage ≠ .finalized)
    (hdone : Done mode d s call r d') (hbytes : call.passes mode d s = some bytes) :
    d'.Regular p mode (m ++ bytes) := by
  obtain ⟨hopen, hholds⟩ := h.opened hstage
  cases hdone with
  | wrote hwrote =>
      cases hbytes
      exact hwrote.regular hopen hholds
  | wroteNums hbytes' hwrote =>
      obtain rfl := Option.some.inj (hbytes'.symm.trans hbytes)
      have hnext : d.numbered.Open m.length := ⟨hopen.length, hopen.aligned, hopen.stage⟩
      exact hwrote.regular hnext (hholds.congr rfl rfl)
  | summedBytes hsum => exact hsum.regular
  | summed hsum hpack =>
      have hsummed := hsum.regular (m := m ++ bytes)
      exact ⟨fun h => absurd hsum.stage h, hsummed.closed⟩

/-- Every digest that calls lead to has the invariant: a reset establishes it,
    and each call that may be made keeps it. -/
theorem Received.regular (h : Received p mode d m) : d.Regular p mode m := by
  induction h with
  | new => exact Digest.regular_startAt 0
  | reset d => exact Digest.regular_startAt d.ops
  | @done d d' m bytes s s' call r _ hrun hbytes ih =>
      obtain ⟨hstage, hdone⟩ := call.leads_perform.ok r (d', s') hrun
      exact hdone.regular ih hstage hbytes
  | @refused d d' m s s' call _ hrun ih =>
      -- no other failure has this error
      cases call.leads_perform.error _ _ hrun with
      | refused => exact ih
      | undigested he => exact nomatch he
      | interrupted he =>
          rcases he with ⟨_, he⟩ | ⟨_, _, he⟩
          · exact nomatch he
          · exact nomatch he
  | @undigested d d' m s s' call e _ hrun hnone ih =>
      cases call.leads_perform.error _ _ hrun with
      | refused => exact ih
      | undigested =>
          refine ⟨fun hstage => ?_, ih.closed⟩
          obtain ⟨hopen, hholds⟩ := ih.opened hstage
          exact ⟨⟨hopen.length, hopen.aligned, hopen.stage⟩, hholds.congr rfl rfl⟩
      | interrupted _ hsome => exact absurd hnone hsome

/-! ## The run of a digest -/

/-- What is pending are the last bytes, as many as the length leaves over. -/
theorem Digest.Regular.pending_eq (h : d.Regular p mode m) :
    d.pending.toList = m.rtake (d.length % 64) := by
  by_cases hstage : d.stage = .finalized
  · obtain ⟨hpending, hlength⟩ := h.closed hstage
    rw [hpending, hlength, List.rtake_zero]
  · obtain ⟨hopen, hholds⟩ := h.opened hstage
    have hsize : d.pending.size = m.length % 64 := hopen.length ▸ hopen.aligned
    rw [hopen.length]
    exact (hholds.pending_eq hsize).1

/-- The length counts what was passed in, and the hash is that of its complete
    blocks. -/
theorem Digest.Regular.counts (h : d.Regular p mode m) (hstage : d.stage ≠ .finalized) :
    d.length = m.length ∧ Chained p mode m (m.length / 64) d.hash := by
  obtain ⟨hopen, hholds⟩ := h.opened hstage
  have hsize : d.pending.size = m.length % 64 := hopen.length ▸ hopen.aligned
  exact ⟨hopen.length, (hholds.pending_eq hsize).2⟩

/-- Nothing is left over when a regular digest takes its sum. -/
theorem Digest.Regular.perform_ne (h : d.Regular p mode m) (call : Call p) (s : System p)
    (n : Nat) (c : Digest × System p) :
    call.perform mode (d, s) ≠ .error (.paddingInvariant n) c := by
  intro hrun
  have hopen : d.stage ≠ .finalized := by
    intro hstage
    exact nomatch (call.perform_finalized hstage).symm.trans hrun
  cases call.leads_perform.error _ _ hrun with
  | undigested he => exact nomatch he
  | interrupted he =>
      rcases he with ⟨_, he⟩ | ⟨hout, _⟩
      · exact nomatch he
      · exact hout (h.opened hopen).1.aligned

/-- Sums finalize, at the end of a block, and nothing else does. -/
theorem Done.finalizes (h : Done mode d s call r d') :
    (d'.stage = .finalized ↔ call.IsSum) ∧
      (call.IsSum → d'.pending = #[] ∧ d'.length % 64 = 0) := by
  cases h with
  | wrote hwrote =>
      have hstage : d'.stage = .streaming := hwrote.took.stage
      simp [hstage, Call.IsSum]
  | wroteNums _ hwrote =>
      have hstage : d'.stage = .streaming := hwrote.took.stage
      simp [hstage, Call.IsSum]
  | summedBytes hsum =>
      exact ⟨⟨fun _ => trivial, fun _ => hsum.stage⟩, fun _ => ⟨hsum.pending, hsum.length_mod⟩⟩
  | summed hsum =>
      exact ⟨⟨fun _ => trivial, fun _ => hsum.stage⟩, fun _ => ⟨hsum.pending, hsum.length_mod⟩⟩

/-- What is true of a digest at every point of its life: the buffer holds the
    last bytes, as many as the length leaves over; until the digest is
    finalized its length counts the bytes passed in, and its hash is that of
    their complete blocks; sums finalize it at the end of a block and never
    find bytes left over; and once finalized it refuses every call, which
    changes nothing, until it is reset. -/
theorem Received.run (h : Received p mode d m) :
    d.pending.toList = m.rtake (d.length % 64) ∧
      (d.stage ≠ .finalized → d.length = m.length ∧ Chained p mode m (m.length / 64) d.hash) ∧
      (∀ (call : Call p) (s : System p) r d' s', call.perform mode (d, s) = .ok r (d', s') →
        (d'.stage = .finalized ↔ call.IsSum) ∧
          (call.IsSum → d'.pending = #[] ∧ d'.length % 64 = 0)) ∧
      (∀ (call : Call p) (s : System p) n c,
        call.perform mode (d, s) ≠ .error (.paddingInvariant n) c) ∧
      (d.stage = .finalized → ∀ (call : Call p) (s : System p),
        call.perform mode (d, s) = .error .digestFinalized (d, s)) ∧
      d.reset.stage = .fresh := by
  refine ⟨h.regular.pending_eq, h.regular.counts, fun call s r d' s' hrun => ?_,
    h.regular.perform_ne, fun hstage call s => call.perform_finalized hstage, rfl⟩
  obtain ⟨_, hdone⟩ := call.leads_perform.ok r (d', s') hrun
  exact hdone.finalizes

/-- One byte more than a block. -/
theorem Received.run_sixtyFive : ∃ d : Digest,
    Received Moduli.bn256 .compiling d (List.replicate 65 (.constant 0)) ∧
      d.pending.toList = [.constant 0] ∧ d.length = 65 ∧
      Chained Moduli.bn256 .compiling (List.replicate 65 (.constant 0)) 1 d.hash := by
  obtain ⟨bytes, hbytes⟩ : ∃ bytes : List Byte, bytes = List.replicate 65 (.constant 0) := ⟨_, rfl⟩
  have hcount : bytes.length = 65 := by rw [hbytes, List.length_replicate]
  rw [← hbytes]
  obtain ⟨⟨n, d⟩, s', _, hwrite, _, _, hgrown⟩ := Digest.takes_write (p := Moduli.bn256)
    (d := .new) (by decide) bytes nofun (by decide) .start
  have hrun : (Call.write bytes).perform .compiling (.new, System.start)
      = .ok (.count n) (d, s') := Call.perform_of_ok (on_eq_ok.mp hwrite)
  have h : Received Moduli.bn256 .compiling d bytes := .done .new hrun rfl
  have hopen : d.stage ≠ .finalized := by
    rw [hgrown.stage]
    nofun
  obtain ⟨hpending, hcounts, _⟩ := h.run
  obtain ⟨hlength, hchained⟩ := hcounts hopen
  rw [hcount] at hlength hchained
  refine ⟨d, h, ?_, hlength, hchained⟩
  rw [hpending, hlength, hbytes]
  rfl

/-! ## Failures -/

/-- The bytes `bs` are the hash of the bytes `m`: those, their padding and
    their length, less what is ignored, went into it. -/
def Hashed (p : Nat) [Modulus p] (mode : Mode) (m : List Byte) (ignore : LinNum p)
    (bs : Vector Byte 32) : Prop :=
  ∃ (bits : Vector Bit 64) (hash : Vector Word 8) (s s' : System p),
    let padded := m ++ Digest.padding m.length ++ Digest.lengthBytes bits
    (Digest.lengthField m.length ignore).toBits 64 mode s = .ok bits s' ∧
      Chained p mode padded (padded.length / 64) hash ∧ bs = Digest.hashBytes hash

theorem Digest.Summed.hashed {ignore : LinNum p} {bs : Vector Byte 32}
    (h : Digest.Summed p mode ignore d bs d') (hlength : d.length = m.length)
    (hholds : d.Holds p mode m) : Hashed p mode m ignore bs := by
  obtain ⟨bits, s, s', hbits, hpadded⟩ := h.holds
  rw [hlength] at hbits hpadded
  refine ⟨bits, d'.hash, s, s', hbits, ?_, h.bytes⟩
  obtain ⟨n, hn⟩ := hpadded m hholds
  -- with nothing pending every block is in the hash
  have hsize := hn.size
  rw [h.pending, Array.size_empty] at hsize
  have hblocks : (m ++ padding m.length ++ lengthBytes bits).length / 64 = n := by omega
  rw [hblocks]
  exact hn.hash

/-- A failure that comes late is not the refusal of a finalized digest. -/
theorem ne_digestFinalized (h : Digest.Fails e ∨ ¬d.Aligned ∧ ∃ n, e = .paddingInvariant n) :
    e ≠ .digestFinalized := by
  rintro rfl
  rcases h with ⟨_, h⟩ | ⟨_, _, h⟩
  · exact nomatch h
  · exact nomatch h

/-- What a failed call leaves: everything as it was, apart from an operation
    number, after a refusal and after numbers that cannot be taken apart; and a
    greater length after any other failure. -/
theorem Failed.exact {c : Digest × System p} (h : Failed mode d s call e c) :
    (d.Kept c.1 ↔ e = .digestFinalized ∨ call.passes mode d s = none) ∧
      (d.Kept c.1 → c.1 = d ∨ c.1 = d.numbered) ∧ (¬d.Kept c.1 → d.length < c.1.length) ∧
      (e = .digestFinalized → c = (d, s)) := by
  cases h with
  | refused hstage =>
      have hkept : d.Kept d := ⟨rfl, rfl, rfl, rfl⟩
      exact ⟨⟨fun _ => .inl rfl, fun _ => hkept⟩, fun _ => .inl rfl, fun h => absurd hkept h,
        fun _ => rfl⟩
  | undigested he hnone =>
      have hkept : d.Kept d.numbered := ⟨rfl, rfl, rfl, rfl⟩
      exact ⟨⟨fun _ => .inr hnone, fun _ => hkept⟩, fun _ => .inr rfl, fun h => absurd hkept h,
        fun h => absurd h (ne_digestFinalized (d := d) (.inl he))⟩
  | interrupted he hsome hmore =>
      have hne := ne_digestFinalized he
      have hchanged : ¬d.Kept c.1 := fun h => hmore.ne' h.length
      refine ⟨⟨fun h => absurd h hchanged, ?_⟩, fun h => absurd h hchanged, fun _ => hmore,
        fun h => absurd h hne⟩
      rintro (h | h)
      · exact absurd h hne
      · exact absurd h hsome

/-- No call takes back what it did before it failed, so that a digest is as it
    was only where nothing had been done: where the digest was finalized, and
    where numbers could not be taken apart.  As long as calls fail in these
    ways only, a sum hashes exactly the bytes of the writes that succeeded
    since the last reset, and never finds bytes left over. -/
theorem failures_exact (mode : Mode) :
    (∀ (call : Call p) (d d' : Digest) (s s' : System p) (e : GadgetError),
      call.perform mode (d, s) = .error e (d', s') →
        (d.Kept d' ↔ e = .digestFinalized ∨ call.passes mode d s = none) ∧
          (d.Kept d' → d' = d ∨ d' = d.numbered) ∧ (¬d.Kept d' → d.length < d'.length) ∧
          (e = .digestFinalized → (d', s') = (d, s))) ∧
      ∀ (d : Digest) (m : List Byte), Received p mode d m →
        ∀ (ignore : LinNum p) (s : System p) (c : Digest × System p),
          (∀ bs, (Call.sumBytes ignore).perform mode (d, s) = .ok (.bytes bs) c →
            Hashed p mode m ignore bs) ∧
          (∀ x, (Call.sum ignore).perform mode (d, s) = .ok (.num x) c →
            ∃ bs, Hashed p mode m ignore bs ∧ ∃ s₁ s₂,
              Num.ofBits (bs.toList.reverse.flatMap (·.bits.toList)) mode s₁ = .ok x s₂) ∧
          ∀ (call : Call p) n, call.perform mode (d, s) ≠ .error (.paddingInvariant n) c := by
  refine ⟨fun call d d' s s' e hrun => (call.leads_perform.error e (d', s') hrun).exact, ?_⟩
  intro d m h ignore s c
  have hregular := h.regular
  refine ⟨fun bs hrun => ?_, fun x hrun => ?_, fun call n => hregular.perform_ne call s n c⟩
  · obtain ⟨hstage, hdone⟩ := (Call.sumBytes ignore).leads_perform.ok _ c hrun
    obtain ⟨hopen, hholds⟩ := hregular.opened hstage
    cases hdone with
    | summedBytes hsum => exact hsum.hashed hopen.length hholds
  · obtain ⟨hstage, hdone⟩ := (Call.sum ignore).leads_perform.ok _ c hrun
    obtain ⟨hopen, hholds⟩ := hregular.opened hstage
    generalize c.1 = d' at hdone
    cases hdone with
    | summed hsum hpack => exact ⟨_, hsum.hashed hopen.length hholds, _, _, hpack⟩

theorem failures_exact_empty : ∃ (bs : Vector Byte 32) (c : Digest × System Moduli.bn256),
    (Call.sumBytes (.const 0)).perform .compiling (.new, .start) = .ok (.bytes bs) c ∧
      Hashed Moduli.bn256 .compiling [] (.const 0) bs := by
  obtain ⟨⟨bs, d⟩, s', _, hsum, _⟩ := Digest.takes_sumBytes (p := Moduli.bn256) (d := .new)
    (by decide) (.const 0) nofun (Digest.aligned_startAt 0) .start
  have hrun : (Call.sumBytes (.const 0)).perform .compiling (.new, System.start)
      = .ok (.bytes bs) (d, s') := Call.perform_of_ok (on_eq_ok.mp hsum)
  obtain ⟨hhashed, _⟩ :=
    (failures_exact .compiling).2 .new [] .new (LinNum.const 0) .start (d, s')
  exact ⟨bs, (d, s'), hrun, hhashed bs hrun⟩

/-- A number to ignore whose value is not known. -/
def unknownIgnore : LinNum Moduli.bn256 := ⟨none, .ofVar (.aux 0)⟩

set_option maxRecDepth 4000 in
/-- A sum that fails at the length of the message has written the padding. -/
theorem sum_unknownIgnore_not_kept : ∃ d' s',
    (Call.sum unknownIgnore).perform .solving (Digest.new, .start)
        = .error (.synthesis SynthesisError.assignmentMissing.message) (d', s') ∧
      d'.pending.size = 56 ∧ d'.length = 56 ∧ d'.stage = .streaming ∧ ¬Digest.new.Kept d' := by
  refine ⟨_, _, rfl, rfl, rfl, rfl, fun h => ?_⟩
  exact absurd h.length (by decide)

end RankOne.Sha256
