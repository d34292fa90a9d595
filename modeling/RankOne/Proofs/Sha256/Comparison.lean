import RankOne.Proofs.Comparison
import RankOne.Proofs.Sha256.Padding

/-!
# Comparing digests — the compression and the calls, in any sense

    In whichever way operands are likened and runs are compared, like words are
    compressed to like words, and like digests are called to such digests.
    Over a small field a sum of words may have no room, so nothing is said of
    success here: a comparison of the parts is one of the whole.
-/

namespace RankOne.Sha256

open Build

variable {p : Nat} {L : Likeness p} {α β : Type}

/-! ## Compression -/

section Compression

/-- Blocks alike have words alike. -/
theorem like_wordsOf {block block' : Vector Byte 64} (h : Each L.bits block block') :
    Each L.bits (wordsOf block) (wordsOf block') := by
  intro i hi
  unfold wordsOf
  rw [Vector.getElem_ofFn, Vector.getElem_ofFn]
  exact L.ofBytesBE
    (Each.four (h (4 * i) _) (h (4 * i + 1) _) (h (4 * i + 2) _) (h (4 * i + 3) _))

variable [Modulus p] (C : Comparison L)

/-- All sigma functions add three words that are made of one. -/
private theorem compare_xor₃ (name name' : String) {x x' y y' u u' : Word} (hx : L.bits x x')
    (hy : L.bits y y') (hu : L.bits u u') :
    C.rel (do let t ← Build.within name <| x.xor y; Build.within name' <| t.xor u)
      (do let t ← Build.within name <| x'.xor y'; Build.within name' <| t.xor u') L.bits := by
  apply C.bind (C.within (C.xor hx hy))
  intro t t' ht
  exact C.within (C.xor ht hu)

/-- The sigma functions of words alike are alike. -/
theorem compare_bigSigma₀ {x x' : Word} (hx : L.bits x x') :
    C.rel (bigSigma₀ x) (bigSigma₀ x') L.bits :=
  compare_xor₃ C _ _ (L.rotateRight hx 2) (L.rotateRight hx 13) (L.rotateRight hx 22)

theorem compare_bigSigma₁ {x x' : Word} (hx : L.bits x x') :
    C.rel (bigSigma₁ x) (bigSigma₁ x') L.bits :=
  compare_xor₃ C _ _ (L.rotateRight hx 6) (L.rotateRight hx 11) (L.rotateRight hx 25)

theorem compare_smallSigma₀ {x x' : Word} (hx : L.bits x x') :
    C.rel (smallSigma₀ x) (smallSigma₀ x') L.bits :=
  compare_xor₃ C _ _ (L.rotateRight hx 7) (L.rotateRight hx 18) (L.shiftRight hx 3)

theorem compare_smallSigma₁ {x x' : Word} (hx : L.bits x x') :
    C.rel (smallSigma₁ x) (smallSigma₁ x') L.bits :=
  compare_xor₃ C _ _ (L.rotateRight hx 17) (L.rotateRight hx 19) (L.shiftRight hx 10)

/-- The next words of schedules alike are alike. -/
theorem compare_nextWord (i : Nat) {recent recent' : Vector Word 16}
    (h : Each L.bits recent recent') :
    C.rel (nextWord i recent) (nextWord i recent') L.bits := by
  apply C.bind (C.within (compare_smallSigma₁ C (h.entry 14)))
  intro s₁ s₁' hs₁
  apply C.bind (C.within (compare_smallSigma₀ C (h.entry 1)))
  intro s₀ s₀' hs₀
  exact C.within (C.addMany (.cons hs₁ (.cons (h.entry 9) (.cons hs₀ (.cons (h.entry 0) .nil)))))

/-- By induction on the number of words. -/
theorem compare_extend (n i : Nat) {recent recent' : Vector Word 16}
    (h : Each L.bits recent recent') :
    C.rel (extend n i recent) (extend n i recent') (List.Forall₂ L.bits) := by
  induction n generalizing i recent recent' with
  | zero => exact C.pure .nil
  | succ n ih =>
      apply C.bind (compare_nextWord C i h)
      intro w w' hw
      apply C.bind (ih (i + 1) (h.shift hw))
      intro later later' hlater
      exact C.pure (.cons hw hlater)

/-- Rounds take registers alike to registers alike. -/
theorem compare_round (i : Nat) (k : BitVec 32) {w w' : Word} {r r' : Vector Word 8}
    (hw : L.bits w w') (hr : Each L.bits r r') :
    C.rel (round i k w r) (round i k w' r') (Each L.bits) := by
  apply C.bind (C.within (compare_bigSigma₁ C (hr.entry 4)))
  intro sigma₁ sigma₁' hsigma₁
  apply C.bind (C.within (C.choose (hr.entry 4) (hr.entry 5) (hr.entry 6)))
  intro ch ch' hch
  apply C.bind (C.within (C.addMany (.cons (hr.entry 7) (.cons hsigma₁ (.cons hch
    (.cons (L.constant _) (.cons hw .nil)))))))
  intro t t' ht
  apply C.bind (C.within (compare_bigSigma₀ C (hr.entry 0)))
  intro sigma₀ sigma₀' hsigma₀
  apply C.bind (C.within (C.majority (hr.entry 0) (hr.entry 1) (hr.entry 2)))
  intro maj maj' hmaj
  apply C.bind (C.within (C.addMany (.cons (hr.entry 3) (.cons ht .nil))))
  intro e e' he
  apply C.bind (C.within (C.addMany (.cons ht (.cons hsigma₀ (.cons hmaj .nil)))))
  intro a a' ha
  apply C.pure
  exact Each.eight ha (hr 0 _) (hr 1 _) (hr 2 _) he (hr 4 _) (hr 5 _) (hr 6 _)

/-- By induction on the rounds that are left. -/
theorem compare_rounds (i : Nat) (ks : List (BitVec 32)) {ws ws' : List Word}
    {r r' : Vector Word 8} (hws : List.Forall₂ L.bits ws ws')
    (hr : Each L.bits r r') :
    C.rel (rounds i (ks.zip ws) r) (rounds i (ks.zip ws') r') (Each L.bits) := by
  induction hws generalizing i ks r r' with
  | nil =>
      rw [List.zip_nil_right]
      exact C.pure hr
  | cons hw _ ih =>
      cases ks with
      | nil => exact C.pure hr
      | cons k rest =>
          apply C.bind (compare_round C i k hw hr)
          intro r r' hr'
          exact ih (i + 1) rest hr'

/-- Hashes and blocks alike are compressed alike. -/
theorem compare_compress {hash hash' : Vector Word 8} {block block' : Vector Byte 64}
    (hhash : Each L.bits hash hash') (hblock : Each L.bits block block') :
    C.rel (compress hash block) (compress hash' block') (Each L.bits) := by
  have hwords := like_wordsOf hblock
  have hschedule : C.rel (schedule block) (schedule block') (List.Forall₂ L.bits) := by
    apply C.bind (compare_extend C 48 16 hwords)
    intro later later' hlater
    exact C.pure (List.rel_append hwords.forall₂ hlater)
  apply C.bind hschedule
  intro ws ws' hws
  apply C.bind (compare_rounds C 0 roundConstants hws hhash)
  intro r r' hr
  apply C.tabulate
  intro i
  exact C.within (C.addMany (.cons (hhash i i.isLt) (.cons (hr i i.isLt) .nil)))

end Compression

/-! ## Padding and hashes -/

namespace Digest

/-- Padding is made of constants. -/
theorem like_padding (length : Nat) : List.Forall₂ L.bits (padding length) (padding length) := by
  refine List.forall₂_same.mpr fun b hb => ?_
  rcases List.mem_cons.mp hb with rfl | hzero
  · exact L.constant _
  · rw [List.eq_of_mem_replicate hzero]
    exact L.constant _

/-- The bytes of lengths alike are alike. -/
theorem like_lengthBytes {bits bits' : Vector Bit 64} (h : Each L.bit bits bits') :
    List.Forall₂ L.bits (lengthBytes bits) (lengthBytes bits') := by
  refine forall₂_ofFn fun j => L.ofBits fun i hi => ?_
  rw [Vector.getElem_ofFn, Vector.getElem_ofFn]
  exact h _ _

/-- The bytes of hashes alike are alike. -/
theorem like_hashBytes {hash hash' : Vector Word 8} (h : Each L.bits hash hash') :
    Each L.bits (hashBytes hash) (hashBytes hash') := by
  intro i (hi : i < 32)
  have hbyte := L.toBytesBE (h (i / 4) (by omega)) (i % 4) (by omega)
  simpa [hashBytes] using hbyte

/-- The digits that are packed stand in one order. -/
theorem like_digits {bytes bytes' : Vector Byte 32} (h : Each L.bits bytes bytes') :
    List.Forall₂ L.bit (bytes.toList.reverse.flatMap (·.bits.toList))
      (bytes'.toList.reverse.flatMap (·.bits.toList)) := by
  refine List.rel_flatMap (List.rel_reverse h.forall₂) fun x x' hx => ?_
  exact Each.forall₂ (L.each hx)

end Digest

/-! ## Circuits on digests -/

/-- Digests that two runs of the same calls have reached. -/
structure Digest.Alike (m : Mode) (d d' : Digest) : Prop where
  hash : Each (Bits.Alike m) d.hash d'.hash
  pending : List.Forall₂ (Bits.Alike m) d.pending.toList d'.pending.toList
  length : d.length = d'.length
  stage : d.stage = d'.stage
  ops : d.ops = d'.ops

theorem Digest.alike_refl (m : Mode) (d : Digest) : d.Alike m d :=
  ⟨fun _ _ => Bits.alike_refl m _, List.forall₂_same.mpr fun _ _ => Bits.alike_refl m _, rfl, rfl,
    rfl⟩

/-- Digests that have had the same calls, of like integers. -/
structure Digest.Like (L : Likeness p) (d d' : Digest) : Prop where
  hash : Each L.bits d.hash d'.hash
  pending : List.Forall₂ L.bits d.pending.toList d'.pending.toList
  length : d.length = d'.length
  stage : d.stage = d'.stage
  ops : d.ops = d'.ops

/-- Constants are like themselves, and a new digest is made of them. -/
theorem Digest.like_startAt (ops : Nat) : (Digest.startAt ops).Like L (.startAt ops) := by
  refine ⟨fun i hi => ?_, .nil, rfl, rfl, rfl⟩
  show L.bits (initialHash.map _)[i] (initialHash.map _)[i]
  rw [Vector.getElem_map]
  exact L.constant _

/-- For runs that follow each other, digests are alike as such. -/
theorem Digest.like_alike {m : Mode} {d d' : Digest} :
    d.Like (p := p) (.alike m) d' ↔ d.Alike m d' :=
  ⟨fun h => ⟨h.hash, h.pending, h.length, h.stage, h.ops⟩,
    fun h => ⟨h.hash, h.pending, h.length, h.stage, h.ops⟩⟩

/-- A way to compare two circuits that work on like digests; the circuits in
    them are compared by `C`. -/
structure Hashing.Comparison [Modulus p] (C : RankOne.Comparison L) where
  rel : {α β : Type} → Hashing p α → Hashing p β → (α → β → Prop) → Prop
  pure : ∀ {α β : Type} {a : α} {b : β} {R : α → β → Prop}, R a b → rel (pure a) (pure b) R
  throw : ∀ {α β : Type} (e : GadgetError) (R : α → β → Prop), rel (throw e) (throw e) R
  bind : ∀ {α β α' β' : Type} {x : Hashing p α} {y : Hashing p β} {f : α → Hashing p α'}
    {g : β → Hashing p β'} {R : α → β → Prop} {Q : α' → β' → Prop}, rel x y R →
      (∀ a b, R a b → rel (f a) (g b) Q) → rel (x >>= f) (y >>= g) Q
  within : ∀ {α β : Type} {name : String} {x : Hashing p α} {y : Hashing p β}
    {R : α → β → Prop}, rel x y R → rel (Hashing.within name x) (Hashing.within name y) R
  lift : ∀ {α β : Type} {x : Build p SynthesisError α} {y : Build p SynthesisError β}
    {R : α → β → Prop}, C.rel x y R → rel (Hashing.lift x) (Hashing.lift y) R
  digest : rel Hashing.digest Hashing.digest (Digest.Like L)
  change : ∀ {f g : Digest → Digest}, (∀ d d', d.Like L d' → (f d).Like L (g d')) →
    rel (Hashing.change f) (Hashing.change g) fun _ _ => True

variable [Modulus p] {C : RankOne.Comparison L} (H : Hashing.Comparison C)

/-- A condition on what digests alike share decides both runs. -/
theorem Hashing.Comparison.ite {c : Prop} [Decidable c] {x x' : Hashing p α} {y y' : Hashing p β}
    {R : α → β → Prop} (h : c → H.rel x y R) (h' : ¬c → H.rel x' y' R) :
    H.rel (if c then x else x') (if c then y else y') R := by
  split
  · next hc => exact h hc
  · next hc => exact h' hc

namespace Digest

/-- Digests alike have done as many operations. -/
theorem compare_nextOp : H.rel nextOp nextOp Eq := by
  apply H.bind H.digest
  intro d d' hd
  rw [hd.ops]
  refine H.bind (H.change fun c c' hc => ?_) fun _ _ _ => H.pure rfl
  exact ⟨hc.hash, hc.pending, hc.length, hc.stage, rfl⟩

/-- Digests alike are finalized together. -/
theorem compare_ensureOpen : H.rel ensureOpen ensureOpen fun _ _ => True := by
  apply H.bind H.digest
  intro d d' hd
  rw [hd.stage]
  exact H.ite (fun _ => H.throw _ _) fun _ => H.pure trivial

/-- They are full together. -/
theorem compare_absorbFull : H.rel absorbFull absorbFull fun _ _ => True := by
  apply H.bind H.digest
  intro d d' hd
  have hsize : d.pending.size = d'.pending.size := hd.pending.length_eq
  by_cases hfull : d'.pending.size = 64
  · rw [dif_pos hfull, dif_pos (hsize.trans hfull)]
    apply H.bind (compare_nextOp H)
    rintro op _ rfl
    refine H.bind (H.change fun c c' hc => ?_) fun _ _ _ => ?_
    · exact ⟨hc.hash, .nil, hc.length, hc.stage, hc.ops⟩
    have hblock : Each L.bits (⟨d.pending, hsize.trans hfull⟩ : Vector Byte 64)
        ⟨d'.pending, hfull⟩ := Each.of_forall₂ hd.pending
    apply H.bind (H.within (H.lift (compare_compress C hd.hash hblock)))
    intro hash hash' hhash
    apply H.change
    intro c c' hc
    exact ⟨hhash, hc.pending, hc.length, hc.stage, hc.ops⟩
  · rw [dif_neg hfull, dif_neg fun heq => hfull (hsize.symm.trans heq)]
    exact H.pure trivial

/-- By induction on the bytes. -/
theorem compare_absorb {bytes bytes' : List Byte} (h : List.Forall₂ L.bits bytes bytes') :
    H.rel (absorb bytes) (absorb bytes') fun _ _ => True := by
  induction h with
  | nil => exact H.pure trivial
  | cons hb _ ih =>
      refine H.bind (H.change fun d d' hd => ?_) fun _ _ _ =>
        H.bind (compare_absorbFull H) fun _ _ _ => ih
      refine ⟨hd.hash, ?_, hd.length, hd.stage, hd.ops⟩
      rw [Array.toList_push, Array.toList_push]
      exact List.rel_append hd.pending (.cons hb .nil)

/-- The numbers of bytes are equal, so that the calls count alike. -/
theorem compare_write {bytes bytes' : List Byte} (h : List.Forall₂ L.bits bytes bytes') :
    H.rel (write bytes) (write bytes') Eq := by
  rw [write, write, h.length_eq]
  apply H.bind (compare_ensureOpen H)
  intro _ _ _
  refine H.bind (H.change fun d d' hd => ?_) fun _ _ _ =>
    H.bind (compare_absorb H h) fun _ _ _ => H.pure rfl
  exact ⟨hd.hash, hd.pending, congrArg (· + bytes'.length) hd.length, rfl, hd.ops⟩

/-- Numbers alike are split into bytes alike. -/
theorem compare_bytesOf (C : RankOne.Comparison L) (op : Nat) {xs xs' : List (Num p)}
    (h : List.Forall₂ C.num xs xs') :
    C.rel (bytesOf op xs) (bytesOf op xs') (List.Forall₂ L.bits) := by
  refine C.listMapM ?_ (forall₂_zipIdx_zipIdx h 0)
  rintro ⟨x, i⟩ ⟨x', _⟩ ⟨hx, rfl⟩
  exact C.within (C.fromNum hx)

/-- So they may be written as numbers. -/
theorem compare_writeNums {xs xs' : List (Num p)} (h : List.Forall₂ C.num xs xs') :
    H.rel (writeNums xs) (writeNums xs') Eq := by
  apply H.bind (compare_ensureOpen H)
  intro _ _ _
  apply H.bind (compare_nextOp H)
  rintro op _ rfl
  apply H.bind (H.lift (compare_bytesOf C op h))
  intro bytes bytes' hbytes
  exact compare_write H hbytes

/-- Sums of digests alike are alike, and so are the digests that they leave. -/
theorem compare_sumBytes {ignore ignore' : LinNum p}
    (h : ∀ n, L.lin (lengthField n ignore) (lengthField n ignore')) :
    H.rel (sumBytes ignore) (sumBytes ignore') (Each L.bits) := by
  apply H.bind (compare_ensureOpen H)
  intro _ _ _
  apply H.bind (compare_nextOp H)
  rintro op _ rfl
  apply H.bind H.digest
  intro d d' hd
  rw [hd.length]
  apply H.bind (H.within (compare_write H (like_padding d'.length)))
  intro _ _ _
  apply H.bind (H.within (H.lift (C.toBits (h d'.length) 64)))
  intro bits bits' hbits
  apply H.bind (H.within (compare_write H (like_lengthBytes hbits)))
  intro _ _ _
  apply H.bind H.digest
  intro c c' hc
  have hsize : c.pending.size = c'.pending.size := hc.pending.length_eq
  have hclose : H.rel
      (do Hashing.change fun d => { d with stage := .finalized }
          return hashBytes (← Hashing.digest).hash)
      (do Hashing.change fun d => { d with stage := .finalized }
          return hashBytes (← Hashing.digest).hash) (Each L.bits) := by
    refine H.bind (H.change fun d d' hd => ?_) fun _ _ _ =>
      H.bind H.digest fun d d' hd => H.pure (like_hashBytes hd.hash)
    exact ⟨hd.hash, hd.pending, hd.length, rfl, hd.ops⟩
  rw [hsize]
  exact H.ite (fun _ => H.bind (H.throw _ fun _ _ => True) fun _ _ _ => hclose) fun _ => hclose

/-- And so are the numbers that they are packed into. -/
theorem compare_sum {ignore ignore' : LinNum p}
    (h : ∀ n, L.lin (lengthField n ignore) (lengthField n ignore')) :
    H.rel (sum ignore) (sum ignore') C.num := by
  apply H.bind (compare_sumBytes H h)
  intro bytes bytes' hbytes
  apply H.bind (compare_nextOp H)
  rintro op _ rfl
  exact H.within (H.lift (C.ofBits (like_digits hbytes)))

end Digest

end RankOne.Sha256
