import RankOne.Proofs.Renaming
import RankOne.Proofs.Sha256.Calls

/-!
# Displacement — digests that differ in their counters only

    A digest counts the bytes that it was given and the operations that it has
    done.  The second count goes into names, and the first into the length at
    the end of a sum: neither is looked at by anything else.  So two digests
    that hold the same bytes, with counters that are some way apart, are taken
    through the same calls alike, and stay as far apart as they were.

    `Hashing.Moves n k x y R` says this of circuits on digests whose lengths
    are `n` and whose operation numbers are `k` apart, in the sense of
    `Build.Uniform`: in every mode, whether the runs succeed or fail, and for
    every relation between their systems that is kept when names of a digest
    are renumbered.
-/

namespace RankOne.Sha256

open Build

variable {p n k : Nat} {α α' β β' : Type}

/-! ## Names and digests apart -/

/-- One name, or two names of a digest whose operation numbers are `k` apart. -/
def Renumbered (k : Nat) (name name' : String) : Prop :=
  name = name' ∨ ∃ stem ∈ Digest.stems, ∃ i tail,
    name = stem ++ toString (i + k) ++ tail ∧ name' = stem ++ toString i ++ tail

namespace Renumbered

theorem refl (name : String) : Renumbered k name name := .inl rfl

/-- A name that ends in its number. -/
theorem counted {stem : String} (h : stem ∈ Digest.stems) (i : Nat) :
    Renumbered k (stem ++ toString (i + k)) (stem ++ toString i) :=
  .inr ⟨stem, h, i, "", String.append_empty.symm, String.append_empty.symm⟩

/-- Names that are no way apart are the same. -/
theorem eq_of_zero {name name' : String} (h : Renumbered 0 name name') : name = name' := by
  rcases h with rfl | ⟨stem, _, i, tail, rfl, rfl⟩
  · rfl
  · rfl

end Renumbered

/-- Digests that hold the same, and whose counters are `n` and `k` apart. -/
structure Digest.Displaced (n k : Nat) (d d' : Digest) : Prop where
  hash : d.hash = d'.hash
  pending : d.pending = d'.pending
  length : d.length = d'.length + n
  stage : d.stage = d'.stage
  ops : d.ops = d'.ops + k

theorem Digest.displaced_refl (d : Digest) : d.Displaced 0 0 d := ⟨rfl, rfl, rfl, rfl, rfl⟩

/-- Digests that are no way apart are the same. -/
theorem Digest.Displaced.eq {d d' : Digest} (h : d.Displaced 0 0 d') : d = d' := by
  obtain ⟨hash, pending, length, stage, ops⟩ := d
  obtain ⟨hash', pending', length', stage', ops'⟩ := d'
  obtain rfl : hash = hash' := h.hash
  obtain rfl : pending = pending' := h.pending
  obtain rfl : length = length' := h.length
  obtain rfl : stage = stage' := h.stage
  obtain rfl : ops = ops' := h.ops
  rfl

/-- Digests that are displaced, and systems that are related. -/
structure Apart (n k : Nat) (T : System p → System p → Prop) (c c' : Digest × System p) :
    Prop where
  digest : c.1.Displaced n k c'.1
  system : T c.2 c'.2

namespace Hashing

/-- Circuits on displaced digests that come to outcomes of one kind, and leave
    displaced digests. -/
def Moves (n k : Nat) (x : Hashing p α) (y : Hashing p β) (R : α → β → Prop) : Prop :=
  ∀ mode T, System.Stable (Renumbered k) mode T → ∀ ρ, InStep mode (Apart n k (T ρ)) x y R

namespace Moves

variable {x : Hashing p α} {y : Hashing p β} {R R' : α → β → Prop}

theorem pure {a : α} {b : β} (h : R a b) : Moves n k (pure a : Hashing p α) (pure b) R :=
  fun _ _ _ _ => .pure h

theorem throw (e : GadgetError) (R : α → β → Prop) :
    Moves n k (throw e : Hashing p α) (throw e) R :=
  fun _ _ _ _ => .throw e R

/-- What comes second finds the digests as far apart as they were. -/
theorem bind {f : α → Hashing p α'} {g : β → Hashing p β'} {Q : α' → β' → Prop}
    (h : Moves n k x y R) (hfg : ∀ a b, R a b → Moves n k (f a) (g b) Q) :
    Moves n k (x >>= f) (y >>= g) Q :=
  fun mode T hT ρ => (h mode T hT ρ).bind fun a b hab => hfg a b hab mode T hT ρ

theorem ite {c : Prop} [Decidable c] {x' : Hashing p α} {y' : Hashing p β}
    (h : c → Moves n k x y R) (h' : ¬c → Moves n k x' y' R) :
    Moves n k (if c then x else x') (if c then y else y') R :=
  fun mode T hT ρ => .ite (fun hc => h hc mode T hT ρ) fun hc => h' hc mode T hT ρ

/-- A circuit without a digest leaves the digests where they are. -/
theorem lift {x : Build p SynthesisError α} {y : Build p SynthesisError β}
    (h : Uniform (Renumbered k) x y R) : Moves n k (Hashing.lift x) (Hashing.lift y) R := by
  rintro mode T hT ρ ⟨d, s⟩ ⟨d', s'⟩ ⟨hd, hs⟩
  unfold Hashing.lift
  rcases (h mode T hT ρ s s' hs).ok_or_error with
    ⟨a, t, b, t', hx, hy, ht, hab⟩ | ⟨e, t, t', hx, hy, ht⟩
  · simp only [hx, hy]
    exact .ok ⟨hd, ht⟩ hab
  · simp only [hx, hy]
    exact .error ⟨hd, ht⟩

/-- The names of a namespace may be renumbered. -/
theorem within {name name' : String} (hname : Renumbered k name name') (h : Moves n k x y R) :
    Moves n k (Hashing.within name x) (Hashing.within name' y) R := by
  rintro mode T hT ρ ⟨d, s⟩ ⟨d', s'⟩ ⟨hd, hs⟩
  have hbody := h mode T hT _ (d, recording mode (·.enter name) s)
    (d', recording mode (·.enter name') s') ⟨hd, hT.enter hs hname⟩
  unfold Hashing.within
  rcases hbody.ok_or_error with
    ⟨a, t, b, t', hx, hy, ht, hab⟩ | ⟨e, t, t', hx, hy, ht⟩
  · simp only [hx, hy]
    exact .ok ⟨ht.digest, hT.leave ht.system⟩ hab
  · simp only [hx, hy]
    exact .error ⟨ht.digest, hT.leave ht.system⟩

theorem inside (h : Moves n k x y R) :
    (path : List String) → Moves n k (Hashing.inside path x) (Hashing.inside path y) R
  | [] => h
  | name :: path => (Moves.inside h path).within (.refl name)

/-- Both runs read their digests, which are displaced. -/
theorem digest : Moves n k (Hashing.digest : Hashing p Digest) Hashing.digest
    (Digest.Displaced n k) :=
  fun _ _ _ _ _ _ hc => .ok hc hc.digest

/-- A change has to keep the distance. -/
theorem change {f g : Digest → Digest}
    (h : ∀ d d', d.Displaced n k d' → (f d).Displaced n k (g d')) :
    Moves n k (Hashing.change f : Hashing p Unit) (Hashing.change g) fun _ _ => True :=
  fun _ _ _ _ _ _ hc => .ok ⟨h _ _ hc.digest, hc.system⟩ trivial

end Moves

end Hashing

/-! ## The operations -/

open Hashing

namespace Digest

/-- Operation numbers stay apart. -/
theorem moves_nextOp : Moves (p := p) n k nextOp nextOp fun op op' => op = op' + k := by
  apply Moves.digest.bind
  intro d d' hd
  refine (Moves.change fun c c' hc => ?_).bind fun _ _ _ => .pure hd.ops
  have hops : d.ops + 1 = d'.ops + 1 + k := by rw [hd.ops, Nat.add_right_comm]
  exact ⟨hc.hash, hc.pending, hc.length, hc.stage, hops⟩

/-- The stage is not displaced. -/
theorem moves_ensureOpen : Moves (p := p) n k ensureOpen ensureOpen fun _ _ => True := by
  apply Moves.digest.bind
  intro d d' hd
  rw [hd.stage]
  exact .ite (fun _ => .throw _ _) fun _ => .pure trivial

variable [Modulus p]

/-- No name in a block carries an operation number. -/
theorem natural_compress (hash : Vector Word 8) (block : Vector Byte 64) :
    Natural (Renumbered k) (compress (p := p) hash block) := by
  refine (compare_compress (.uniform (Renumbered k)) (fun _ _ => Bits.alike_refl _ _)
    fun _ _ => Bits.alike_refl _ _).mono fun hash hash' h => ?_
  exact Vector.ext fun i hi => (h i hi).eq rfl

/-- The namespace of a block carries one. -/
theorem moves_absorbFull : Moves (p := p) n k absorbFull absorbFull fun _ _ => True := by
  apply Moves.digest.bind
  intro d d' hd
  obtain ⟨hash, pending, length, stage, ops⟩ := d
  obtain ⟨hash', pending', length', stage', ops'⟩ := d'
  obtain rfl : hash = hash' := hd.hash
  obtain rfl : pending = pending' := hd.pending
  by_cases hfull : pending.size = 64
  · rw [dif_pos hfull]
    apply moves_nextOp.bind
    rintro _ op rfl
    refine (Moves.change fun c c' hc => ?_).bind fun _ _ _ => ?_
    · exact ⟨hc.hash, rfl, hc.length, hc.stage, hc.ops⟩
    have hname : Renumbered k s!"block {op + k}" s!"block {op}" :=
      .counted (by decide) op
    apply ((Moves.lift (natural_compress hash ⟨pending, hfull⟩)).within hname).bind
    rintro after _ rfl
    apply Moves.change
    intro c c' hc
    exact ⟨rfl, hc.pending, hc.length, hc.stage, hc.ops⟩
  · rw [dif_neg hfull]
    exact .pure trivial

/-- By induction on the bytes. -/
theorem moves_absorb (bytes : List Byte) :
    Moves (p := p) n k (absorb bytes) (absorb bytes) fun _ _ => True := by
  induction bytes with
  | nil => exact .pure trivial
  | cons b rest ih =>
      refine (Moves.change fun d d' hd => ?_).bind fun _ _ _ =>
        moves_absorbFull.bind fun _ _ _ => ih
      exact ⟨hd.hash, congrArg (·.push b) hd.pending, hd.length, hd.stage, hd.ops⟩

/-- Both lengths grow by the same number. -/
theorem moves_write (bytes : List Byte) :
    Moves (p := p) n k (write bytes) (write bytes) Eq := by
  apply moves_ensureOpen.bind
  intro _ _ _
  refine (Moves.change fun d d' hd => ?_).bind fun _ _ _ =>
    (moves_absorb bytes).bind fun _ _ _ => .pure rfl
  have hlength : d.length + bytes.length = d'.length + bytes.length + n := by
    rw [hd.length, Nat.add_right_comm]
  exact ⟨hd.hash, hd.pending, hlength, rfl, hd.ops⟩

/-- The bytes of numbers have names with an operation number. -/
theorem uniform_bytesOf (op : Nat) (xs : List (Num p)) :
    Uniform (Renumbered k) (bytesOf (op + k) xs) (bytesOf op xs) Eq := by
  refine (Uniform.listMapM (Q := Eq) xs.zipIdx ?_).mono fun _ _ h => ?_
  · rintro ⟨x, i⟩
    have hname : Renumbered k s!"bytes {op + k} {i}" s!"bytes {op} {i}" := by
      refine .inr ⟨"bytes ", by decide, op, " " ++ toString i, ?_, ?_⟩
      · exact String.append_assoc
      · exact String.append_assoc
    exact Uniform.within (fun _ => hname) (Bits.natural_fromNum x)
  · rw [List.forall₂_eq_eq_eq] at h
    exact h

theorem moves_writeNums (xs : List (Num p)) :
    Moves n k (writeNums xs) (writeNums xs) Eq := by
  apply moves_ensureOpen.bind
  intro _ _ _
  apply moves_nextOp.bind
  rintro _ op rfl
  apply (Moves.lift (uniform_bytesOf op xs)).bind
  rintro bytes _ rfl
  exact moves_write bytes

/-- A sum looks at the length, which has to be the same. -/
theorem moves_sumBytes (ignore : LinNum p) :
    Moves 0 k (sumBytes ignore) (sumBytes ignore) Eq := by
  apply moves_ensureOpen.bind
  intro _ _ _
  apply moves_nextOp.bind
  rintro _ op rfl
  apply Moves.digest.bind
  intro d d' hd
  have hlength : d.length = d'.length := hd.length
  rw [hlength]
  have hpadding : Renumbered k s!"padding {op + k}" s!"padding {op}" := .counted (by decide) op
  have hlen : Renumbered k s!"length {op + k}" s!"length {op}" := .counted (by decide) op
  have hbytes : Renumbered k s!"length bytes {op + k}" s!"length bytes {op}" :=
    .counted (by decide) op
  apply ((moves_write _).within hpadding).bind
  intro _ _ _
  apply ((Moves.lift (LinNum.natural_toBits _ 64)).within hlen).bind
  rintro bits _ rfl
  apply ((moves_write _).within hbytes).bind
  intro _ _ _
  apply Moves.digest.bind
  intro c c' hc
  rw [hc.pending]
  have hclose : Moves (p := p) 0 k
      (do Hashing.change fun d => { d with stage := .finalized }
          return hashBytes (← Hashing.digest).hash)
      (do Hashing.change fun d => { d with stage := .finalized }
          return hashBytes (← Hashing.digest).hash) Eq := by
    refine (Moves.change fun d d' hd => ?_).bind fun _ _ _ =>
      Moves.digest.bind fun d d' hd => .pure (congrArg hashBytes hd.hash)
    exact ⟨hd.hash, hd.pending, hd.length, rfl, hd.ops⟩
  exact .ite (fun _ => (Moves.throw _ fun _ _ => True).bind fun _ _ _ => hclose) fun _ => hclose

/-- A sum looks at the length, so that digests must agree on it. -/
theorem moves_sum (ignore : LinNum p) : Moves 0 k (sum ignore) (sum ignore) Eq := by
  apply (moves_sumBytes ignore).bind
  rintro bytes _ rfl
  apply moves_nextOp.bind
  rintro _ op rfl
  exact (Moves.lift (Num.natural_ofBits _)).within (.counted (by decide) op)

end Digest

/-- Every call moves digests of one length alike, whatever numbers they have
    come to. -/
theorem Call.moves_perform [Modulus p] (call : Call p) :
    Moves 0 k call.perform call.perform Eq := by
  cases call with
  | write bytes => exact (Digest.moves_write bytes).bind fun _ _ h => .pure (congrArg _ h)
  | writeNums xs => exact (Digest.moves_writeNums xs).bind fun _ _ h => .pure (congrArg _ h)
  | sumBytes ignore =>
      exact (Digest.moves_sumBytes ignore).bind fun _ _ h => .pure (congrArg _ h)
  | sum ignore => exact (Digest.moves_sum ignore).bind fun _ _ h => .pure (congrArg _ h)

end RankOne.Sha256
