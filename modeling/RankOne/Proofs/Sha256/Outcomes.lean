import Mathlib.Data.List.DropRight
import RankOne.Proofs.Sha256.Operations

/-!
# Outcomes — what a call on a digest leaves, also where it fails

    A call that fails has done part of its work, and what it has done stays.
    `Leads mode c body Q E` says both halves of what a run from the digest and
    the system `c` comes to: `Q` of the result and what is left where the run
    gives one, and `E` of the error and what is left where it does not.

    The digest is followed byte by byte: `d.Holds mode m` says that the bytes
    `m` went into it, the complete blocks into the hash, one after another and
    each by one run of the compression, and the rest into the buffer.
-/

namespace RankOne.Sha256

open Build

variable {p : Nat} {α β : Type}

/-! ## Both outcomes of a run -/

/-- A run from `c` gives a result with `Q`, or fails with `E`. -/
structure Leads (mode : Mode) (c : Digest × System p) (body : Hashing p α)
    (Q : α → Digest × System p → Prop) (E : GadgetError → Digest × System p → Prop) : Prop where
  ok : ∀ a c', body mode c = .ok a c' → Q a c'
  error : ∀ e c', body mode c = .error e c' → E e c'

namespace Leads

variable {mode : Mode} {c c' : Digest × System p} {body x : Hashing p α} {f : α → Hashing p β}
  {Q Q' : α → Digest × System p → Prop} {R : β → Digest × System p → Prop}
  {E E' : GadgetError → Digest × System p → Prop}

theorem mono (h : Leads mode c body Q E) (hQ : ∀ a c', Q a c' → Q' a c')
    (hE : ∀ e c', E e c' → E' e c') : Leads mode c body Q' E' where
  ok a c' hrun := hQ a c' (h.ok a c' hrun)
  error e c' hrun := hE e c' (h.error e c' hrun)

theorem pure {a : α} (h : Q a c) : Leads mode c (pure a) Q E := by
  constructor
  · intro b c' hrun
    cases hrun
    exact h
  · intro e c' hrun
    exact nomatch hrun

theorem throw {e : GadgetError} (h : E e c) : Leads mode c (throw e : Hashing p α) Q E := by
  constructor
  · intro b c' hrun
    exact nomatch hrun
  · intro e c' hrun
    cases hrun
    exact h

theorem change {g : Digest → Digest} {Q : Unit → Digest × System p → Prop}
    (h : Q () (g c.1, c.2)) : Leads mode c (Hashing.change g) Q E := by
  constructor
  · intro _ c' hrun
    cases hrun
    exact h
  · intro e c' hrun
    exact nomatch hrun

theorem bind_apply (x : Hashing p α) (f : α → Hashing p β) (mode : Mode)
    (c : Digest × System p) : (x >>= f) mode c = match x mode c with
      | .ok a c' => f a mode c'
      | .error e c' => .error e c' := by
  show EStateM.bind (x mode) (fun a => f a mode) c = _
  rw [EStateM.bind]
  cases x mode c with
  | ok a c' => rfl
  | error e c' => rfl

/-- A failure of the first part is one of the whole. -/
theorem bind (hx : Leads mode c x Q E) (hf : ∀ a c', Q a c' → Leads mode c' (f a) R E) :
    Leads mode c (x >>= f) R E := by
  cases hrun : x mode c with
  | ok a c' =>
      have hbind : (x >>= f) mode c = f a mode c' := by rw [bind_apply, hrun]
      have hrest := hf a c' (hx.ok a c' hrun)
      constructor
      · intro b c'' h
        exact hrest.ok b c'' (hbind.symm.trans h)
      · intro e c'' h
        exact hrest.error e c'' (hbind.symm.trans h)
  | error e c' =>
      have hbind : (x >>= f) mode c = .error e c' := by rw [bind_apply, hrun]
      constructor
      · intro b c'' h
        exact nomatch hbind.symm.trans h
      · intro e' c'' h
        cases hbind.symm.trans h
        exact hx.error e c' hrun

/-- A first part whose result is known. -/
theorem after {a : α} {b : Digest × System p} (hrun : x mode c = .ok a b)
    (h : Leads mode b (f a) R E) : Leads mode c (x >>= f) R E := by
  have hx : Leads mode c x (fun a' b' => a' = a ∧ b' = b) E := by
    constructor
    · intro a' b' h
      cases hrun.symm.trans h
      exact ⟨rfl, rfl⟩
    · intro e b' h
      exact nomatch hrun.symm.trans h
  refine hx.bind ?_
  rintro _ _ ⟨rfl, rfl⟩
  exact h

/-- A circuit leaves the digest alone, whatever comes of it. -/
theorem lift {d : Digest} {s : System p} {body : Build p SynthesisError α}
    (hok : ∀ a s', body mode s = .ok a s' → Q a (d, s'))
    (herror : ∀ e s', body mode s = .error e s' → E e.toGadgetError (d, s')) :
    Leads mode (d, s) (Hashing.lift body) Q E := by
  cases hrun : body mode s with
  | ok a s' =>
      have hlift : Hashing.lift body mode (d, s) = .ok a (d, s') := by rw [Hashing.lift, hrun]
      constructor
      · intro b c h
        cases hlift.symm.trans h
        exact hok a s' hrun
      · intro e c h
        exact nomatch hlift.symm.trans h
  | error e s' =>
      have hlift : Hashing.lift body mode (d, s) = .error e.toGadgetError (d, s') := by
        rw [Hashing.lift, hrun]
      constructor
      · intro b c h
        exact nomatch hlift.symm.trans h
      · intro e' c h
        cases hlift.symm.trans h
        exact herror e s' hrun

/-- A namespace changes the paths only. -/
theorem within {name : String} {d : Digest} {s : System p}
    (h : Leads mode (d, recording mode (·.enter name) s) body
      (fun a c' => Q a (c'.1, recording mode (·.leave) c'.2))
      (fun e c' => E e (c'.1, recording mode (·.leave) c'.2))) :
    Leads mode (d, s) (Hashing.within name body) Q E := by
  constructor
  · intro a c hrun
    rw [Hashing.within] at hrun
    split at hrun
    · next hbody =>
        cases hrun
        exact h.ok _ _ hbody
    · exact nomatch hrun
  · intro e c hrun
    rw [Hashing.within] at hrun
    split at hrun
    · exact nomatch hrun
    · next hbody =>
        cases hrun
        exact h.error _ _ hbody

end Leads

/-- The run of a call is one of the circuit on its digest. -/
theorem Hashing.on_eq_ok {mode : Mode} {d d' : Digest} {s s' : System p} {body : Hashing p α}
    {a : α} : on d body mode s = .ok (a, d') s' ↔ body mode (d, s) = .ok a (d', s') := by
  rw [on]
  cases body mode (d, s) with
  | ok b c =>
      constructor
      · intro h
        cases h
        rfl
      · intro h
        cases h
        rfl
  | error e c =>
      constructor
      · intro h
        cases h
      · intro h
        cases h

theorem Leads.and_gives {mode : Mode} {d : Digest} {s : System p} {body : Hashing p α}
    {Q : α → Digest × System p → Prop} {E : GadgetError → Digest × System p → Prop}
    {R : α × Digest → Prop} (h : Leads mode (d, s) body Q E) (hR : Gives (Hashing.on d body) R) :
    Leads mode (d, s) body (fun a c' => Q a c' ∧ R (a, c'.1)) E where
  ok a c' hrun := ⟨h.ok a c' hrun, hR mode s c'.2 (a, c'.1) (Hashing.on_eq_ok.mpr hrun)⟩
  error := h.error

variable [Modulus p]

/-! ## Blocks in a hash -/

/-- The hash of the first `n` blocks of the bytes `m`: each block went into the
    hash of those before it, by a run of the compression. -/
def Chained (p : Nat) [Modulus p] (mode : Mode) (m : List Byte) : Nat → Vector Word 8 → Prop
  | 0, hash => hash = Digest.startHash
  | n + 1, hash => ∃ (before : Vector Word 8) (block : Vector Byte 64) (s s' : System p),
      Chained p mode m n before ∧ block.toList = (m.drop (64 * n)).take 64 ∧
        compress before block mode s = .ok hash s'

variable {mode : Mode} {m : List Byte} {n : Nat} {hash : Vector Word 8}

/-- More bytes change nothing about the blocks before them. -/
theorem Chained.append (h : Chained p mode m n hash) (hle : 64 * n ≤ m.length) (m' : List Byte) :
    Chained p mode (m ++ m') n hash := by
  induction n generalizing hash with
  | zero => exact h
  | succ n ih =>
      obtain ⟨before, block, s, s', hbefore, hblock, hrun⟩ := h
      refine ⟨before, block, s, s', ih hbefore (by omega), ?_, hrun⟩
      rw [List.drop_append_of_le_length (by omega), List.take_append_of_le_length, hblock]
      rw [List.length_drop]
      omega

namespace Digest

open Hashing

/-- The bytes `m` went into the digest, `n` blocks of them into the hash. -/
structure HoldsBlocks (p : Nat) [Modulus p] (mode : Mode) (d : Digest) (m : List Byte) (n : Nat) :
    Prop where
  hash : Chained p mode m n d.hash
  le : 64 * n ≤ m.length
  pending : d.pending.toList = m.drop (64 * n)

/-- The bytes `m` went into the digest. -/
def Holds (p : Nat) [Modulus p] (mode : Mode) (d : Digest) (m : List Byte) : Prop :=
  ∃ n, d.HoldsBlocks p mode m n

section Holds

variable {d d' : Digest}

theorem holds_startAt (ops : Nat) : (startAt ops).Holds p mode [] :=
  ⟨0, rfl, Nat.le_refl 0, rfl⟩

/-- Only the hash and the pending bytes matter. -/
theorem Holds.congr (h : d.Holds p mode m) (hhash : d'.hash = d.hash)
    (hpending : d'.pending = d.pending) : d'.Holds p mode m := by
  obtain ⟨n, hn⟩ := h
  exact ⟨n, hhash ▸ hn.hash, hn.le, hpending ▸ hn.pending⟩

theorem HoldsBlocks.size (h : d.HoldsBlocks p mode m n) : 64 * n + d.pending.size = m.length := by
  have hlength := congrArg List.length h.pending
  rw [List.length_drop, Array.length_toList] at hlength
  have hle := h.le
  omega

theorem Holds.push (h : d.Holds p mode m) (b : Byte) : (d.push b).Holds p mode (m ++ [b]) := by
  obtain ⟨n, hn⟩ := h
  refine ⟨n, hn.hash.append hn.le [b], ?_, ?_⟩
  · rw [List.length_append]
    exact hn.le.trans (Nat.le_add_right _ _)
  · show (d.pending.push b).toList = _
    rw [Array.toList_push, List.drop_append_of_le_length hn.le, hn.pending]

/-- A full buffer is the next block. -/
theorem Holds.absorbed (h : d.Holds p mode m) (hfull : d.pending.size = 64) {s s' : System p}
    (hrun : compress d.hash ⟨d.pending, hfull⟩ mode s = .ok hash s') :
    (d.absorbed hash).Holds p mode m := by
  obtain ⟨n, hn⟩ := h
  have hsize := hn.size
  refine ⟨n + 1, ⟨d.hash, ⟨d.pending, hfull⟩, s, s', hn.hash, ?_, hrun⟩, by omega, ?_⟩
  · have hrest : (m.drop (64 * n)).length ≤ 64 := by
      rw [List.length_drop]
      omega
    rw [List.take_of_length_le hrest]
    exact hn.pending
  · exact (List.drop_eq_nil_of_le (by omega)).symm

/-- What is pending is the end of what went in. -/
theorem Holds.pending_eq (h : d.Holds p mode m) (hsize : d.pending.size = m.length % 64) :
    d.pending.toList = m.rtake (m.length % 64) ∧ Chained p mode m (m.length / 64) d.hash := by
  obtain ⟨n, hn⟩ := h
  have hlength := hn.size
  have hblocks : m.length / 64 = n := by omega
  have hrest : m.length - m.length % 64 = 64 * n := by omega
  rw [List.rtake, hrest, hblocks]
  exact ⟨hn.pending, hn.hash⟩

end Holds

/-! ## The operations -/

section Operations

variable {d : Digest} {s : System p}

omit [Modulus p] in
theorem nextOp_eq : (nextOp : Hashing p Nat) mode (d, s) = .ok d.ops (d.numbered, s) := rfl

omit [Modulus p] in
theorem ensureOpen_of_open (h : d.stage ≠ .finalized) :
    (ensureOpen : Hashing p Unit) mode (d, s) = .ok () (d, s) :=
  on_eq_ok.mp (congrFun (congrFun (on_ensureOpen h) mode) s)

omit [Modulus p] in
theorem ensureOpen_of_finalized (h : d.stage = .finalized) :
    (ensureOpen : Hashing p Unit) mode (d, s) = .error .digestFinalized (d, s) := by
  rw [ensureOpen, Leads.bind_apply]
  show (if d.stage = .finalized then throw .digestFinalized else pure () : Hashing p Unit)
    mode (d, s) = _
  rw [if_pos h]
  rfl

/-- An error of synthesis. -/
def Fails (e : GadgetError) : Prop := ∃ reason, e = .synthesis reason

/-- What the bytes make of a digest when they are absorbed. -/
structure Took (p : Nat) [Modulus p] (mode : Mode) (d : Digest) (bytes : List Byte)
    (d' : Digest) : Prop where
  length : d'.length = d.length
  stage : d'.stage = d.stage
  holds : ∀ m, d.Holds p mode m → d'.Holds p mode (m ++ bytes)

theorem took_nothing (d : Digest) : d.Took p mode [] d := by
  refine ⟨rfl, rfl, fun m hm => ?_⟩
  rw [List.append_nil]
  exact hm

theorem Took.append {bytes bytes' : List Byte} {d₁ d₂ : Digest} (h : d.Took p mode bytes d₁)
    (h' : d₁.Took p mode bytes' d₂) : d.Took p mode (bytes ++ bytes') d₂ := by
  refine ⟨h'.length.trans h.length, h'.stage.trans h.stage, fun m hm => ?_⟩
  rw [← List.append_assoc]
  exact h'.holds _ (h.holds m hm)

/-- The compression is the only part of a write that can fail. -/
theorem leads_absorbFull : Leads mode (d, s) absorbFull (fun _ c => d.Took p mode [] c.1)
    fun e c => Fails e ∧ c.1.length = d.length := by
  rw [absorbFull]
  refine .after (a := d) (b := (d, s)) rfl ?_
  split
  · next hfull =>
      let emptied : Digest := { d.numbered with pending := #[] }
      refine .after nextOp_eq (.after (b := (emptied, s)) rfl ?_)
      refine .bind (Q := fun hash c => c.1 = emptied ∧
        ∀ m, d.Holds p mode m → (d.absorbed hash).Holds p mode m) ?_ ?_
      · refine .within (.lift (fun hash s' hrun => ⟨rfl, fun m hm => hm.absorbed hfull hrun⟩) ?_)
        intro e s' _
        exact ⟨⟨e.message, rfl⟩, rfl⟩
      · rintro hash ⟨_, s'⟩ ⟨rfl, habsorbed⟩
        refine .change ⟨rfl, rfl, fun m hm => ?_⟩
        rw [List.append_nil]
        exact habsorbed m hm
  · exact .pure (took_nothing d)

theorem leads_absorb (bytes : List Byte) : Leads mode (d, s) (absorb bytes)
    (fun _ c => d.Took p mode bytes c.1)
    fun e c => Fails e ∧ c.1.length = d.length ∧ bytes ≠ [] := by
  induction bytes generalizing d s with
  | nil => exact .pure (took_nothing d)
  | cons b rest ih =>
      have hpush : d.Took p mode [b] (d.push b) := ⟨rfl, rfl, fun m hm => hm.push b⟩
      have hne : b :: rest ≠ [] := List.cons_ne_nil b rest
      rw [absorb]
      refine .after (b := (d.push b, s)) rfl ?_
      refine (leads_absorbFull.mono (fun _ _ h => h) fun e c h => ⟨h.1, h.2, hne⟩).bind ?_
      rintro _ ⟨d', s'⟩ hfull
      have htook := hpush.append hfull
      refine ih.mono (fun _ c h => htook.append h) fun e c h => ?_
      exact ⟨h.1, h.2.1.trans htook.length, hne⟩

/-- What a write makes of a digest. -/
structure Wrote (p : Nat) [Modulus p] (mode : Mode) (d : Digest) (bytes : List Byte)
    (d' : Digest) : Prop where
  took : (d.expecting bytes.length).Took p mode bytes d'
  grown : d.Aligned → (d.expecting bytes.length).Grown bytes.length d'

/-- A write that fails has counted its bytes. -/
theorem leads_write (hopen : d.stage ≠ .finalized) (bytes : List Byte) :
    Leads mode (d, s) (write bytes) (fun _ c => d.Wrote p mode bytes c.1)
      fun e c => Fails e ∧ d.length < c.1.length := by
  have hgrown : Gives (on d (write bytes : Hashing p Nat)) fun a =>
      d.Aligned → (d.expecting bytes.length).Grown bytes.length a.2 :=
    fun mode s s' a hrun h => gives_write bytes h.lt mode s s' a hrun
  refine (Leads.and_gives (Q := fun _ c => (d.expecting bytes.length).Took p mode bytes c.1)
    ?_ hgrown).mono (fun _ _ h => ⟨h.1, h.2⟩) fun _ _ h => h
  rw [write]
  refine .after (ensureOpen_of_open hopen) ?_
  refine .after (b := (d.expecting bytes.length, s)) rfl ?_
  refine .bind ((leads_absorb bytes).mono (fun _ _ h => h) ?_) fun _ _ h => .pure h
  rintro e ⟨d', s'⟩ ⟨he, hlength, hne⟩
  -- a write of nothing does nothing that could fail
  have hpos : 0 < bytes.length := List.length_pos_iff.mpr hne
  have hlength' : d'.length = d.length + bytes.length := hlength
  exact ⟨he, show d.length < d'.length by omega⟩

/-- Numbers that cannot be taken apart are not counted; bytes that cannot be
    written are. -/
theorem leads_writeNums (hopen : d.stage ≠ .finalized) (xs : List (Num p)) :
    Leads mode (d, s) (writeNums xs)
      (fun _ c => ∃ bytes s', bytesOf d.ops xs mode s = .ok bytes s' ∧
        d.numbered.Wrote p mode bytes c.1)
      fun e c => Fails e ∧ ((∃ e' s', bytesOf d.ops xs mode s = .error e' s' ∧ c.1 = d.numbered) ∨
        (∃ bytes s', bytesOf d.ops xs mode s = .ok bytes s') ∧ d.length < c.1.length) := by
  rw [writeNums]
  refine .after (ensureOpen_of_open hopen) (.after nextOp_eq ?_)
  refine .bind (Q := fun bytes c => ∃ s', bytesOf d.ops xs mode s = .ok bytes s' ∧
    c = (d.numbered, s')) (.lift (fun bytes s' hrun => ⟨s', hrun, rfl⟩) ?_) ?_
  · intro e s' hrun
    exact ⟨⟨e.message, rfl⟩, .inl ⟨e, s', hrun, rfl⟩⟩
  · rintro bytes _ ⟨s', hrun, rfl⟩
    refine (leads_write (d := d.numbered) hopen bytes).mono (fun _ c h => ?_) fun e c h => ?_
    · exact ⟨bytes, s', hrun, h⟩
    · exact ⟨h.1, .inr ⟨⟨bytes, s', hrun⟩, h.2⟩⟩

/-! ## Sums -/

/-- What a sum that gives `bs` makes of a digest. -/
structure Summed (p : Nat) [Modulus p] (mode : Mode) (ignore : LinNum p) (d : Digest)
    (bs : Vector Byte 32) (d' : Digest) : Prop where
  stage : d'.stage = .finalized
  pending : d'.pending = #[]
  length : d'.length = d.length + (padding d.length).length + 8
  bytes : bs = hashBytes d'.hash
  holds : ∃ (bits : Vector Bit 64) (s s' : System p),
    (lengthField d.length ignore).toBits 64 mode s = .ok bits s' ∧
      ∀ m, d.Holds p mode m → d'.Holds p mode (m ++ padding d.length ++ lengthBytes bits)

/-- A sum ends at the end of a block. -/
theorem Summed.length_mod {ignore : LinNum p} {bs : Vector Byte 32} {d' : Digest}
    (h : Summed p mode ignore d bs d') : d'.length % 64 = 0 := by
  have hzeros := (Standard.zeros_spec d.length).1
  rw [h.length, length_padding]
  omega

/-- A sum that fails has counted its padding, and nothing is left over unless
    it was out of step with the length before. -/
theorem leads_sumBytes (hopen : d.stage ≠ .finalized) (ignore : LinNum p) :
    Leads mode (d, s) (sumBytes ignore) (fun bs c => Summed p mode ignore d bs c.1)
      fun e c => d.length < c.1.length ∧ (Fails e ∨ ¬d.Aligned ∧ ∃ n, e = .paddingInvariant n) := by
  have hpos : 0 < (padding d.length).length := by
    rw [length_padding]
    omega
  rw [sumBytes]
  refine .after (ensureOpen_of_open hopen) (.after nextOp_eq ?_)
  refine .after (b := (d.numbered, s)) rfl ?_
  refine .bind (Q := fun _ c => d.numbered.Wrote p mode (padding d.length) c.1) ?_ ?_
  · refine .within ((leads_write (d := d.numbered) hopen _).mono (fun _ _ h => h) fun e c h => ?_)
    exact ⟨h.2, .inl h.1⟩
  rintro _ ⟨d₁, s₁⟩ ⟨htook₁, hgrown₁⟩
  have hlength₁ : d₁.length = d.length + (padding d.length).length := htook₁.length
  have hopen₁ : d₁.stage ≠ .finalized := by
    rw [htook₁.stage]
    intro h
    cases h
  have hmore : d.length < d₁.length := by omega
  refine .bind (Q := fun bits c => c.1 = d₁ ∧ ∃ s s',
    (lengthField d.length ignore).toBits 64 mode s = .ok bits s') ?_ ?_
  · refine .within (.lift (fun bits s' hrun => ⟨rfl, _, s', hrun⟩) fun e s' _ => ?_)
    exact ⟨hmore, .inl ⟨_, rfl⟩⟩
  rintro bits ⟨d₁', s₂⟩ ⟨hsame, hbits⟩
  obtain rfl : d₁' = d₁ := hsame
  refine .bind (Q := fun _ c => d₁'.Wrote p mode (lengthBytes bits) c.1) ?_ ?_
  · refine .within ((leads_write hopen₁ _).mono (fun _ _ h => h) fun e c h => ?_)
    exact ⟨hmore.trans h.2, .inl h.1⟩
  rintro _ ⟨d₂, s₃⟩ ⟨htook₂, hgrown₂⟩
  have hlength₂ : d₂.length = d₁'.length + (lengthBytes bits).length := htook₂.length
  rw [length_lengthBytes] at hlength₂
  refine .after (b := (d₂, s₃)) rfl ?_
  by_cases hsize : d₂.pending.size = 0
  · rw [if_neg (not_not.mpr hsize)]
    refine .after (b := ({ d₂ with stage := .finalized }, s₃)) rfl (.after rfl (.pure ?_))
    refine ⟨rfl, Array.eq_empty_of_size_eq_zero hsize, ?_, rfl, ?_⟩
    · show d₂.length = _
      omega
    · obtain ⟨s, s', hrun⟩ := hbits
      refine ⟨bits, s, s', hrun, fun m hm => ?_⟩
      have hpadded := htook₁.holds m (hm.congr rfl rfl)
      exact (htook₂.holds _ (hpadded.congr rfl rfl)).congr rfl rfl
  · have hmore₂ : d.length < d₂.length := by omega
    rw [if_pos hsize]
    refine .bind (Q := fun _ _ => False) (.throw ⟨hmore₂, .inr ⟨fun h => hsize ?_, _, rfl⟩⟩)
      fun _ _ => False.elim
    -- in step with its length, a digest is filled up by the padding and the length
    have halign : d₁'.Aligned := Aligned.grown (d := d.numbered) h (hgrown₁ h)
    exact size_of_grown (d := d.numbered) h (hgrown₁ h) (hgrown₂ halign)

/-- A sum as a number packs the bytes of a sum. -/
theorem leads_sum (hopen : d.stage ≠ .finalized) (ignore : LinNum p) :
    Leads mode (d, s) (sum ignore)
      (fun x c => ∃ bs d', Summed p mode ignore d bs d' ∧ c.1 = d'.numbered ∧ ∃ s s',
        Num.ofBits (bs.toList.reverse.flatMap (·.bits.toList)) mode s = .ok x s')
      fun e c => d.length < c.1.length ∧ (Fails e ∨ ¬d.Aligned ∧ ∃ n, e = .paddingInvariant n) := by
  rw [sum]
  refine (leads_sumBytes hopen ignore).bind ?_
  rintro bs ⟨d', s'⟩ hsum
  have hmore : d.length < d'.length := by
    rw [hsum.length]
    omega
  refine .after nextOp_eq (.within (.lift (fun x s'' hrun => ⟨bs, d', hsum, rfl, _, s'', hrun⟩) ?_))
  intro e s'' _
  exact ⟨hmore, .inl ⟨_, rfl⟩⟩

end Operations

end Digest

end RankOne.Sha256
