import Mathlib.Tactic.IntervalCases
import RankOne.Proofs.Sha256.Standard
import RankOne.Proofs.Words
import RankOne.Sha256.Compress

/-!
# Compression — the circuit computes the standard's compression

    Every part of the compression circuit has a part of the standard that it
    computes: the sigma functions, the next word of a schedule, a round, and
    from these by induction the schedule, the sixty-four rounds and the block.
    For each there are three lemmas, which say what the rows force, that the
    values of a run satisfy them, and that the part compiles.

    The largest sum is one of five words, which takes 35 digits.  All that is
    asked of the field is that it is large enough for these.
-/

namespace RankOne.Sha256

open Build

variable {p : Nat} [Modulus p]

omit [Modulus p] in
/-- Sums of at most five words have digits enough in any field that is large
    enough for a length. -/
theorem sumWidth_le (hcap : 64 ≤ Fp.capacity p) {n : Nat} (hn : n ≤ 5) :
    Bits.sumWidth 32 n ≤ Fp.capacity p := by
  refine le_trans ?_ hcap
  interval_cases n <;> decide

omit [Modulus p] in
/-- A block's words are read off its bytes in the same way everywhere. -/
theorem each_wordsOf {R : Word → BitVec 32 → Prop} {S : Byte → BitVec 8 → Prop}
    (hR : ∀ (bytes : Vector Byte 4) (vs : Vector (BitVec 8) 4), Each S bytes vs →
      R (Word.ofBytesBE bytes) (Word.joined vs))
    {block : Vector Byte 64} {vs : Vector (BitVec 8) 64} (h : Each S block vs) :
    Each R (wordsOf block) (Standard.wordsOf vs) := by
  intro i hi
  rw [wordsOf, Standard.wordsOf, Vector.getElem_ofFn, Vector.getElem_ofFn]
  simp only [Nat.mul_comm i 4]
  exact hR #v[block[4 * i], block[4 * i + 1], block[4 * i + 2], block[4 * i + 3]]
    #v[vs[4 * i], vs[4 * i + 1], vs[4 * i + 2], vs[4 * i + 3]]
    (Each.four (h (4 * i) _) (h (4 * i + 1) _) (h (4 * i + 2) _) (h (4 * i + 3) _))

/-- A round's constant, and a word that is related to the standard's. -/
def WithConstant (R : Word → BitVec 32 → Prop) (a : BitVec 32 × Word)
    (b : BitVec 32 × BitVec 32) : Prop :=
  a.1 = b.1 ∧ R a.2 b.2

/-- Words that are related stay so beside the same constants. -/
theorem forall₂_zip {R : Word → BitVec 32 → Prop} (ks : List (BitVec 32)) {ws : List Word}
    {vs : List (BitVec 32)} (h : List.Forall₂ R ws vs) :
    List.Forall₂ (WithConstant R) (ks.zip ws) (ks.zip vs) := by
  induction h generalizing ks with
  | nil =>
      rw [List.zip_nil_right, List.zip_nil_right]
      exact .nil
  | cons hw _ ih =>
      cases ks with
      | nil => exact .nil
      | cons k rest => exact .cons ⟨rfl, hw⟩ (ih rest)

/-! ## What the rows force -/

section Forces

variable {z : Variable → Fp p} (hp : p.Prime) (one : z .one = 1) (hcap : 64 ≤ Fp.capacity p)

section Sigma

include one

/-- The distances that are used are far from wrapping around. -/
private theorem is_shiftRight {x : Word} {v : BitVec 32} (h : x.Is z v) {k : UInt64} {n : Nat}
    (hk : k.toNat = n) (hn : n ≤ 32) : (x.shiftRight k).Is z (v >>> n) := by
  subst hk
  exact Bits.Reads.shiftRight (Bit.val_const one false) h k (by omega)

/-- All sigma functions add three words that are made of one. -/
private theorem forces_xor₃ (name name' : String) (x y u : Word) :
    Forces z (do
      let t ← Build.within name <| x.xor y
      Build.within name' <| t.xor (p := p) u) fun r =>
        ∀ a b c, x.Is z a → y.Is z b → u.Is z c → r.Is z (a ^^^ b ^^^ c) := by
  refine (Bits.forces_xor one x y).within.bind fun t => ?_
  refine (Bits.forces_xor one t u).within.mono fun r hr ht => ?_
  intro a b c hx hy hu
  exact hr _ _ (ht _ _ hx hy) hu

/-- The circuit of `Σ₀` computes the standard's `Σ₀`. -/
theorem forces_bigSigma₀ (x : Word) : Forces z (bigSigma₀ (p := p) x) fun r =>
    ∀ v, x.Is z v → r.Is z (Standard.bigSigma₀ v) := by
  refine (forces_xor₃ one _ _ _ _ _).mono fun r hr v hx => ?_
  exact hr _ _ _ (hx.rotateRight 2) (hx.rotateRight 13) (hx.rotateRight 22)

theorem forces_bigSigma₁ (x : Word) : Forces z (bigSigma₁ (p := p) x) fun r =>
    ∀ v, x.Is z v → r.Is z (Standard.bigSigma₁ v) := by
  refine (forces_xor₃ one _ _ _ _ _).mono fun r hr v hx => ?_
  exact hr _ _ _ (hx.rotateRight 6) (hx.rotateRight 11) (hx.rotateRight 25)

/-- Of the small functions the last operand is shifted, and so loses bits. -/
theorem forces_smallSigma₀ (x : Word) : Forces z (smallSigma₀ (p := p) x) fun r =>
    ∀ v, x.Is z v → r.Is z (Standard.smallSigma₀ v) := by
  refine (forces_xor₃ one _ _ _ _ _).mono fun r hr v hx => ?_
  have hshift : (x.shiftRight 3).Is z (v >>> 3) := is_shiftRight one hx rfl (by decide)
  exact hr _ _ _ (hx.rotateRight 7) (hx.rotateRight 18) hshift

theorem forces_smallSigma₁ (x : Word) : Forces z (smallSigma₁ (p := p) x) fun r =>
    ∀ v, x.Is z v → r.Is z (Standard.smallSigma₁ v) := by
  refine (forces_xor₃ one _ _ _ _ _).mono fun r hr v hx => ?_
  have hshift : (x.shiftRight 10).Is z (v >>> 10) := is_shiftRight one hx rfl (by decide)
  exact hr _ _ _ (hx.rotateRight 17) (hx.rotateRight 19) hshift

end Sigma

include hp one hcap

/-- A word of the schedule is the standard's sum of four. -/
theorem forces_nextWord (i : Nat) (recent : Vector Word 16) :
    Forces z (nextWord (p := p) i recent) fun r =>
      ∀ vs, Each (Bits.Is z) recent vs → r.Is z (Standard.nextWord vs) := by
  refine (forces_smallSigma₁ one _).within.bind fun s₁ => ?_
  refine (forces_smallSigma₀ one _).within.bind fun s₀ => ?_
  refine (Bits.forces_addMany hp one _ (sumWidth_le hcap (by simp))).within.mono ?_
  intro r hr hs₀ hs₁ vs hrecent
  have hsum := hr [_, _, _, _] (.cons (hs₁ _ (hrecent.entry 14))
    (.cons (hrecent.entry 9) (.cons (hs₀ _ (hrecent.entry 1))
      (.cons (hrecent.entry 0) .nil))))
  simpa [Standard.nextWord, Vector.get] using hsum

/-- By induction on the number of words, with the sixteen last ones as the
    state. -/
theorem forces_extend (n i : Nat) (recent : Vector Word 16) :
    Forces z (extend (p := p) n i recent) fun ws =>
      ∀ vs, Each (Bits.Is z) recent vs →
        List.Forall₂ (Bits.Is z) ws (Standard.extend n vs) := by
  induction n generalizing i recent with
  | zero => exact Forces.pure fun _ _ => .nil
  | succ n ih =>
      refine (forces_nextWord hp one hcap i recent).bind fun w => ?_
      refine (ih (i + 1) (recent.tail.push w)).bind fun later => Forces.pure ?_
      intro hlater hw vs hrecent
      exact .cons (hw vs hrecent) (hlater _ (hrecent.shift (hw vs hrecent)))

/-- The schedule is the block's words and forty-eight more. -/
theorem forces_schedule (block : Vector Byte 64) :
    Forces z (schedule (p := p) block) fun ws =>
      ∀ vs, Each (Bits.Is z) block vs → List.Forall₂ (Bits.Is z) ws (Standard.schedule vs) := by
  refine (forces_extend hp one hcap 48 16 _).bind fun later => Forces.pure ?_
  intro hlater vs hblock
  have hwords : Each (Bits.Is z) (wordsOf block) (Standard.wordsOf vs) :=
    each_wordsOf (fun _ _ h => Word.reads_ofBytesBE h) hblock
  exact List.rel_append hwords.forall₂ (hlater _ hwords)

/-- A round computes the standard's eight registers, though it forms the sums in
    another order. -/
theorem forces_round (i : Nat) (k : BitVec 32) (w : Word) (r : Vector Word 8) :
    Forces z (round (p := p) i k w r) fun r' =>
      ∀ v vs, w.Is z v → Each (Bits.Is z) r vs →
        Each (Bits.Is z) r' (Standard.round k v vs) := by
  refine (forces_bigSigma₁ one _).within.bind fun sigma₁ => ?_
  refine (Bits.forces_choose one _ _ _).within.bind fun ch => ?_
  refine (Bits.forces_addMany hp one _ (sumWidth_le hcap (by simp))).within.bind fun t₁ => ?_
  refine (forces_bigSigma₀ one _).within.bind fun sigma₀ => ?_
  refine (Bits.forces_majority one _ _ _).within.bind fun maj => ?_
  refine (Bits.forces_addMany hp one _ (sumWidth_le hcap (by simp))).within.bind fun e => ?_
  refine (Bits.forces_addMany hp one _ (sumWidth_le hcap (by simp))).within.bind fun a => ?_
  refine Forces.pure ?_
  intro ha he hmaj hsigma₀ ht₁ hch hsigma₁ v vs hw hr
  -- the first sum is used twice, in the first and in the fifth register
  have ht : t₁.Is z (vs[7] + Standard.bigSigma₁ vs[4] + Standard.ch vs[4] vs[5] vs[6] + k + v) := by
    have hsum := ht₁ [_, _, _, _, _] (.cons (hr.entry 7) (.cons (hsigma₁ _ (hr.entry 4))
      (.cons (hch _ _ _ (hr.entry 4) (hr.entry 5) (hr.entry 6))
        (.cons (Bits.reads_constant (Bit.val_const one) k) (.cons hw .nil)))))
    simpa [Standard.ch] using hsum
  refine Each.eight ?_ (hr 0 _) (hr 1 _) (hr 2 _) ?_ (hr 4 _) (hr 5 _) (hr 6 _)
  · have hsum := ha [_, _, _] (.cons ht (.cons (hsigma₀ _ (hr.entry 0))
      (.cons (hmaj _ _ _ (hr.entry 0) (hr.entry 1) (hr.entry 2)) .nil)))
    simpa [Standard.maj, BitVec.add_assoc, Vector.get] using hsum
  · have hsum := he [_, _] (.cons (hr.entry 3) (.cons ht .nil))
    simpa [Vector.get] using hsum

/-- By induction on the rounds that are left, with the registers as the
    state. -/
theorem forces_rounds (i : Nat) (kws : List (BitVec 32 × Word)) (r : Vector Word 8) :
    Forces z (rounds (p := p) i kws r) fun r' =>
      ∀ kvs vs, List.Forall₂ (WithConstant (Bits.Is z)) kws kvs → Each (Bits.Is z) r vs →
        Each (Bits.Is z) r' (Standard.rounds kvs vs) := by
  induction kws generalizing i r with
  | nil =>
      refine Forces.pure fun kvs vs hkvs hr => ?_
      obtain rfl := List.forall₂_nil_left_iff.mp hkvs
      exact hr
  | cons kw rest ih =>
      obtain ⟨k, w⟩ := kw
      refine (forces_round hp one hcap i k w r).bind fun r' => (ih (i + 1) r').mono ?_
      intro r'' hrest hround kvs vs hkvs hr
      obtain ⟨⟨_, v⟩, rest', ⟨rfl, hw⟩, hrest', rfl⟩ := List.forall₂_cons_left_iff.mp hkvs
      exact hrest rest' _ hrest' (hround v vs hw hr)

/-- The rows of a block force the standard's compression of it. -/
theorem forces_compress (hash : Vector Word 8) (block : Vector Byte 64) :
    Forces z (compress (p := p) hash block) fun r =>
      ∀ hs vs, Each (Bits.Is z) hash hs → Each (Bits.Is z) block vs →
        Each (Bits.Is z) r (Standard.compress hs vs) := by
  refine (forces_schedule hp one hcap block).bind fun ws => ?_
  refine (forces_rounds hp one hcap 0 _ hash).bind fun r => ?_
  refine (Forces.tabulate fun i : Fin 8 =>
    (Bits.forces_addMany hp one [hash[i], r[i]] (sumWidth_le hcap (by simp))).within).mono ?_
  intro out hout hr hws hs vs hhash hblock i hi
  have hrounds := hr _ hs (forall₂_zip roundConstants (hws vs hblock)) hhash
  have hsum := hout i hi [_, _] (.cons (hhash i hi) (.cons (hrounds i hi) .nil))
  rw [Standard.compress, Vector.getElem_zipWith, Standard.roundConstants_eq]
  simpa using hsum

end Forces

/-! ## Honest values -/

section Honest

variable {t : Witness p}

/-- Two sums of live words are live. -/
private theorem honest_xor₃ (name name' : String) {x y u : Word} {a b c : BitVec 32}
    (hx : x.Live t a) (hy : y.Live t b) (hu : u.Live t c) :
    Honest t (do
      let r ← Build.within name <| x.xor y
      Build.within name' <| r.xor (p := p) u) fun t' r => r.Live t' (a ^^^ b ^^^ c) := by
  refine (Bits.honest_xor hx hy).within.bind fun t₁ r hle hr => ?_
  exact (Bits.honest_xor hr (hu.mono hle)).within

theorem honest_bigSigma₀ {x : Word} {v : BitVec 32} (hx : x.Live t v) :
    Honest t (bigSigma₀ (p := p) x) fun t' r => r.Live t' (Standard.bigSigma₀ v) :=
  honest_xor₃ _ _ (hx.rotateRight 2) (hx.rotateRight 13) (hx.rotateRight 22)

theorem honest_bigSigma₁ {x : Word} {v : BitVec 32} (hx : x.Live t v) :
    Honest t (bigSigma₁ (p := p) x) fun t' r => r.Live t' (Standard.bigSigma₁ v) :=
  honest_xor₃ _ _ (hx.rotateRight 6) (hx.rotateRight 11) (hx.rotateRight 25)

theorem honest_smallSigma₀ {x : Word} {v : BitVec 32} (hx : x.Live t v) :
    Honest t (smallSigma₀ (p := p) x) fun t' r => r.Live t' (Standard.smallSigma₀ v) :=
  honest_xor₃ _ _ (hx.rotateRight 7) (hx.rotateRight 18) (hx.shiftRight 3)

theorem honest_smallSigma₁ {x : Word} {v : BitVec 32} (hx : x.Live t v) :
    Honest t (smallSigma₁ (p := p) x) fun t' r => r.Live t' (Standard.smallSigma₁ v) :=
  honest_xor₃ _ _ (hx.rotateRight 17) (hx.rotateRight 19) (hx.shiftRight 10)

/-- What a run has computed stays computed, word by word. -/
theorem live_mono {n w : Nat} {xs : Vector (Bits w) n} {vs : Vector (BitVec w) n} {t' : Witness p}
    (hle : t ≤ t') (h : Each (Bits.Live t) xs vs) : Each (Bits.Live t') xs vs :=
  h.imp fun _ _ hx => hx.mono hle

/-- The words of a live block are live. -/
theorem live_wordsOf {block : Vector Byte 64} {vs : Vector (BitVec 8) 64}
    (h : Each (Bits.Live t) block vs) : Each (Bits.Live t) (wordsOf block) (Standard.wordsOf vs) :=
  each_wordsOf (fun _ _ h => Word.live_ofBytesBE h) h

variable (hcap : 64 ≤ Fp.capacity p)

include hcap

/-- The values of a word of the schedule satisfy its rows. -/
theorem honest_nextWord (i : Nat) {recent : Vector Word 16} {vs : Vector (BitVec 32) 16}
    (h : Each (Bits.Live t) recent vs) :
    Honest t (nextWord (p := p) i recent) fun t' r => r.Live t' (Standard.nextWord vs) := by
  refine (honest_smallSigma₁ (h.entry 14)).within.bind fun t₁ s₁ hle₁ hs₁ => ?_
  have h₁ := live_mono hle₁ h
  refine (honest_smallSigma₀ (h₁.entry 1)).within.bind fun t₂ s₀ hle₂ hs₀ => ?_
  have h₂ := live_mono hle₂ h₁
  have hlist : List.Forall₂ (Bits.Live t₂) [s₁, recent[9], s₀, recent[0]] _ :=
    .cons (hs₁.mono hle₂) (.cons (h₂.entry 9) (.cons hs₀ (.cons (h₂.entry 0) .nil)))
  refine (Bits.honest_addMany hlist (sumWidth_le hcap (by simp))).within.mono fun t₃ r _ hr => ?_
  simpa [Standard.nextWord, Vector.get] using hr

/-- By induction on the number of words, as what is forced of them. -/
theorem honest_extend (n i : Nat) {recent : Vector Word 16} {vs : Vector (BitVec 32) 16}
    (h : Each (Bits.Live t) recent vs) :
    Honest t (extend (p := p) n i recent) fun t' ws =>
      List.Forall₂ (Bits.Live t') ws (Standard.extend n vs) := by
  induction n generalizing i recent vs t with
  | zero => exact Honest.pure fun _ _ => .nil
  | succ n ih =>
      refine (honest_nextWord hcap i h).bind fun t₁ w hle₁ hw => ?_
      refine (ih (i + 1) ((live_mono hle₁ h).shift hw)).bind fun t₂ later hle₂ hlater => ?_
      refine Honest.pure fun t₃ hle₃ => ?_
      exact .cons (hw.mono (hle₂.trans hle₃)) (hlater.imp fun _ _ hx => hx.mono hle₃)

/-- The values of a schedule satisfy its rows. -/
theorem honest_schedule {block : Vector Byte 64} {vs : Vector (BitVec 8) 64}
    (h : Each (Bits.Live t) block vs) :
    Honest t (schedule (p := p) block) fun t' ws =>
      List.Forall₂ (Bits.Live t') ws (Standard.schedule vs) := by
  refine (honest_extend hcap 48 16 (live_wordsOf h)).bind fun t₁ later hle hlater => ?_
  refine Honest.pure fun t₂ hle' => List.rel_append ?_ (hlater.imp fun _ _ hx => hx.mono hle')
  exact (live_mono (hle.trans hle') (live_wordsOf h)).forall₂

/-- The values of a round satisfy its rows. -/
theorem honest_round (i : Nat) (k : BitVec 32) {w : Word} {r : Vector Word 8} {v : BitVec 32}
    {vs : Vector (BitVec 32) 8} (hw : w.Live t v) (hr : Each (Bits.Live t) r vs) :
    Honest t (round (p := p) i k w r) fun t' r' =>
      Each (Bits.Live t') r' (Standard.round k v vs) := by
  refine (honest_bigSigma₁ (hr.entry 4)).within.bind fun t₁ sigma₁ hle₁ hsigma₁ => ?_
  have hr₁ := live_mono hle₁ hr
  refine (Bits.honest_choose (hr₁.entry 4) (hr₁.entry 5)
    (hr₁.entry 6)).within.bind fun t₂ ch hle₂ hch => ?_
  have hr₂ := live_mono hle₂ hr₁
  have hterms : List.Forall₂ (Bits.Live t₂) [r[7], sigma₁, ch, .constant (Bits.cell k), w] _ :=
    .cons (hr₂.entry 7) (.cons (hsigma₁.mono hle₂) (.cons hch
      (.cons (Bits.live_constant t₂ k) (.cons (hw.mono (hle₁.trans hle₂)) .nil))))
  refine (Bits.honest_addMany hterms (sumWidth_le hcap (by simp))).within.bind
    fun t₃ t₁' hle₃ hsum => ?_
  -- the first sum is used twice, in the first and in the fifth register
  have ht : t₁'.Live t₃
      (vs[7] + Standard.bigSigma₁ vs[4] + Standard.ch vs[4] vs[5] vs[6] + k + v) := by
    simpa [Standard.ch] using hsum
  have hr₃ := live_mono hle₃ hr₂
  refine (honest_bigSigma₀ (hr₃.entry 0)).within.bind fun t₄ sigma₀ hle₄ hsigma₀ => ?_
  have hr₄ := live_mono hle₄ hr₃
  refine (Bits.honest_majority (hr₄.entry 0) (hr₄.entry 1)
    (hr₄.entry 2)).within.bind fun t₅ maj hle₅ hmaj => ?_
  have hr₅ := live_mono hle₅ hr₄
  have ht₅ := ht.mono (hle₄.trans hle₅)
  have hpair : List.Forall₂ (Bits.Live t₅) [r[3], t₁'] _ :=
    .cons (hr₅.entry 3) (.cons ht₅ .nil)
  refine (Bits.honest_addMany hpair (sumWidth_le hcap (by simp))).within.bind
    fun t₆ e hle₆ he => ?_
  have hlist := List.Forall₂.cons (ht₅.mono hle₆) (.cons (hsigma₀.mono (hle₅.trans hle₆))
    (.cons (hmaj.mono hle₆) .nil))
  refine (Bits.honest_addMany hlist (sumWidth_le hcap (by simp))).within.bind
    fun t₇ a hle₇ ha => Honest.pure fun t₈ hle₈ => ?_
  have hr₈ := live_mono ((hle₆.trans hle₇).trans hle₈) hr₅
  refine Each.eight ?_ (hr₈ 0 _) (hr₈ 1 _) (hr₈ 2 _) ?_ (hr₈ 4 _) (hr₈ 5 _) (hr₈ 6 _)
  · have ha' := ha.mono hle₈
    simpa [Standard.maj, BitVec.add_assoc, Vector.get] using ha'
  · have he' := he.mono (hle₇.trans hle₈)
    simpa [Vector.get] using he'

/-- By induction on the rounds that are left; what was computed before a round
    is there after it. -/
theorem honest_rounds (i : Nat) {kws : List (BitVec 32 × Word)} {kvs : List (BitVec 32 × BitVec 32)}
    {r : Vector Word 8} {vs : Vector (BitVec 32) 8}
    (hkws : List.Forall₂ (WithConstant (Bits.Live t)) kws kvs) (hr : Each (Bits.Live t) r vs) :
    Honest t (rounds (p := p) i kws r) fun t' r' =>
      Each (Bits.Live t') r' (Standard.rounds kvs vs) := by
  induction kws generalizing i kvs r vs t with
  | nil =>
      obtain rfl := List.forall₂_nil_left_iff.mp hkws
      exact Honest.pure fun t' hle => live_mono hle hr
  | cons kw rest ih =>
      obtain ⟨k, w⟩ := kw
      obtain ⟨⟨_, v⟩, rest', ⟨rfl, hw⟩, hrest, rfl⟩ := List.forall₂_cons_left_iff.mp hkws
      refine (honest_round hcap i k hw hr).bind fun t₁ r' hle hr' => ?_
      have hrest' : List.Forall₂ (WithConstant (Bits.Live t₁)) rest rest' :=
        hrest.imp fun _ _ h => ⟨h.1, h.2.mono hle⟩
      have hlater := ih (i + 1) hrest' hr'
      exact hlater

/-- The values of a block satisfy all of its rows, and are the standard's. -/
theorem honest_compress {hash : Vector Word 8} {block : Vector Byte 64}
    {hs : Vector (BitVec 32) 8} {vs : Vector (BitVec 8) 64} (hhash : Each (Bits.Live t) hash hs)
    (hblock : Each (Bits.Live t) block vs) :
    Honest t (compress (p := p) hash block) fun t' r =>
      Each (Bits.Live t') r (Standard.compress hs vs) := by
  refine (honest_schedule hcap hblock).bind fun t₁ ws hle₁ hws => ?_
  refine (honest_rounds hcap 0 (forall₂_zip roundConstants hws) (live_mono hle₁ hhash)).bind
    fun t₂ r hle₂ hr => ?_
  have hhash₂ := live_mono (hle₁.trans hle₂) hhash
  rw [Standard.compress, Standard.roundConstants_eq]
  -- the registers are added to the hash that the rounds began with
  have hout : Honest t₂ (Build.tabulate fun i : Fin 8 =>
      Build.within s!"h{i}" <| Bits.addMany (p := p) [hash[i], r[i]]) fun t' out =>
        ∀ i (hi : i < 8), out[i].Live t' (hs[i] + (Standard.rounds
          (roundConstants.zip (Standard.schedule vs)) hs)[i]) := by
    refine Honest.tabulate (Q := fun i t' r => Bits.Live t' r (hs[i] + (Standard.rounds
      (roundConstants.zip (Standard.schedule vs)) hs)[i])) (fun _ _ _ _ hle hr => hr.mono hle)
      fun i t' hle => ?_
    have hpair : List.Forall₂ (Bits.Live t') [hash[i], r[i]] _ :=
      .cons ((hhash₂ i i.isLt).mono hle) (.cons ((hr i i.isLt).mono hle) .nil)
    refine (Bits.honest_addMany hpair (sumWidth_le hcap (by simp))).within.mono ?_
    intro t'' a _ ha
    simpa using ha
  refine hout.mono fun t₃ out _ hout i hi => ?_
  rw [Vector.getElem_zipWith]
  exact hout i hi

end Honest

/-! ## Compiling -/

section Compiling

variable (hcap : 64 ≤ Fp.capacity p)

/-- The two sums of a sigma function have the names that they are given. -/
private theorem compiles_xor₃ (name name' : String) (x y u : Word) :
    Compiles [name, name'] (do
      let t ← Build.within name <| x.xor y
      Build.within name' <| t.xor (p := p) u) fun _ => True := by
  refine (Bits.tidy_xor x y).within.step fun t _ => ?_
  exact (Bits.tidy_xor t u).within

theorem tidy_bigSigma₀ (x : Word) : Tidy (bigSigma₀ (p := p) x) fun _ => True :=
  (compiles_xor₃ "r2 xor r13" "xor r22" _ _ _).tidy (by decide)

theorem tidy_bigSigma₁ (x : Word) : Tidy (bigSigma₁ (p := p) x) fun _ => True :=
  (compiles_xor₃ "r6 xor r11" "xor r25" _ _ _).tidy (by decide)

theorem tidy_smallSigma₀ (x : Word) : Tidy (smallSigma₀ (p := p) x) fun _ => True :=
  (compiles_xor₃ "r7 xor r18" "xor s3" _ _ _).tidy (by decide)

theorem tidy_smallSigma₁ (x : Word) : Tidy (smallSigma₁ (p := p) x) fun _ => True :=
  (compiles_xor₃ "r17 xor r19" "xor s10" _ _ _).tidy (by decide)

open Naming (Label)

/-- The names that one word of a schedule takes. -/
def wordLabels (i : Nat) : List Label :=
  [.numbered "w" (by decide) i " s1" (by decide), .numbered "w" (by decide) i " s0" (by decide),
    .counted "w" (by decide) i]

/-- The names that one round takes. -/
def roundLabels (i : Nat) : List Label :=
  [.numbered "r" (by decide) i " sigma1" (by decide), .numbered "r" (by decide) i " ch" (by decide),
    .numbered "r" (by decide) i " t1" (by decide),
    .numbered "r" (by decide) i " sigma0" (by decide),
    .numbered "r" (by decide) i " maj" (by decide), .numbered "r" (by decide) i " e" (by decide),
    .numbered "r" (by decide) i " a" (by decide)]

/-- The names that a block takes: those of its schedule, of its rounds and of
    the new hash. -/
def blockLabels : List Label :=
  (List.range' 16 48).flatMap wordLabels ++
    ((List.range' 0 64).flatMap roundLabels ++ (List.range 8).map (.counted "h" (by decide)))

/-- Names of the schedule begin with one letter. -/
private theorem stem_wordLabels {i : Nat} : ∀ l ∈ wordLabels i, l.stem = "w" := by
  simp [wordLabels, Label.counted, Label.stem]

/-- Names of the rounds begin with another. -/
private theorem stem_roundLabels {i : Nat} : ∀ l ∈ roundLabels i, l.stem = "r" := by
  simp [roundLabels, Label.stem]

/-- No name is given twice in a block. -/
theorem nodup_blockLabels : blockLabels.Nodup := by
  have hword : ((List.range' 16 48).flatMap wordLabels).Nodup := by
    refine Naming.nodup_flatMap_labels List.nodup_range' (fun i => ?_) fun i => ?_
    · simp [wordLabels, Label.counted]
    · simp [wordLabels, Label.counted, Label.index?]
  have hround : ((List.range' 0 64).flatMap roundLabels).Nodup := by
    refine Naming.nodup_flatMap_labels List.nodup_range' (fun i => ?_) fun i => ?_
    · simp [roundLabels]
    · simp [roundLabels, Label.index?]
  have hhash := Naming.nodup_counted "h" (by decide) (List.nodup_range (n := 8))
  have hstem : ∀ l ∈ (List.range 8).map (Label.counted "h" (by decide)), l.stem = "h" := by
    intro l hl
    obtain ⟨i, _, rfl⟩ := List.mem_map.mp hl
    rfl
  -- names of the schedule, of the rounds and of the sum begin with letters of their own
  refine Naming.nodup_append_labels hword (Naming.nodup_append_labels hround hhash ?_) ?_
  · intro l hl l' hl'
    obtain ⟨i, _, hl⟩ := List.mem_flatMap.mp hl
    rw [stem_roundLabels l hl, hstem l' hl']
    decide
  · intro l hl l' hl'
    obtain ⟨i, _, hl⟩ := List.mem_flatMap.mp hl
    rw [stem_wordLabels l hl]
    rcases List.mem_append.mp hl' with hl' | hl'
    · obtain ⟨j, _, hl'⟩ := List.mem_flatMap.mp hl'
      rw [stem_roundLabels l' hl']
      decide
    · rw [hstem l' hl']
      decide

include hcap

/-- A word of the schedule gives its three names. -/
theorem compiles_nextWord (i : Nat) (recent : Vector Word 16) :
    Compiles ((wordLabels i).map Label.name) (nextWord (p := p) i recent) fun _ => True := by
  refine (tidy_smallSigma₁ _).within.step fun s1 _ => ?_
  refine (tidy_smallSigma₀ _).within.step fun s0 _ => ?_
  exact (Bits.tidy_addMany _ (sumWidth_le hcap (by simp))).within

/-- By induction on the number of words; numbers of words tell their names
    apart. -/
theorem compiles_extend (n i : Nat) (recent : Vector Word 16) :
    Compiles (((List.range' i n).flatMap wordLabels).map Label.name) (extend (p := p) n i recent)
      fun ws => ws.length = n := by
  induction n generalizing i recent with
  | zero => exact Compiles.pure rfl
  | succ n ih =>
      rw [List.range'_succ, List.flatMap_cons, List.map_append]
      refine (compiles_nextWord hcap i recent).bind fun w _ => ?_
      refine Compiles.map (g := fun later => w :: later) ?_
      exact (ih (i + 1) (recent.tail.push w)).mono fun _ hlater => congrArg (· + 1) hlater

/-- A round gives its seven names. -/
theorem compiles_round (i : Nat) (k : BitVec 32) (w : Word) (r : Vector Word 8) :
    Compiles ((roundLabels i).map Label.name) (round (p := p) i k w r) fun _ => True := by
  have hsum : ∀ xs : List Word, xs.length ≤ 5 → Tidy (Bits.addMany (p := p) xs) fun _ => True :=
    fun xs h => Bits.tidy_addMany xs (sumWidth_le hcap h)
  refine (tidy_bigSigma₁ _).within.step fun sigma1 _ => ?_
  refine (Bits.tidy_choose _ _ _).within.step fun ch _ => ?_
  refine (hsum _ (by simp)).within.step fun t1 _ => ?_
  refine (tidy_bigSigma₀ _).within.step fun sigma0 _ => ?_
  refine (Bits.tidy_majority _ _ _).within.step fun maj _ => ?_
  refine (hsum _ (by simp)).within.step fun e _ => ?_
  refine (hsum _ (by simp)).within.step fun a _ => ?_
  exact Compiles.pure trivial

/-- By induction on the rounds that are left; numbers of rounds tell their names
    apart. -/
theorem compiles_rounds (i : Nat) (kws : List (BitVec 32 × Word)) (r : Vector Word 8) :
    Compiles (((List.range' i kws.length).flatMap roundLabels).map Label.name)
      (rounds (p := p) i kws r) fun _ => True := by
  induction kws generalizing i r with
  | nil => exact Compiles.pure trivial
  | cons kw rest ih =>
      obtain ⟨k, w⟩ := kw
      rw [List.length_cons, List.range'_succ, List.flatMap_cons, List.map_append]
      exact (compiles_round hcap i k w r).bind fun r' _ => ih (i + 1) r'

/-- A block compiles wherever its name is new. -/
theorem tidy_compress (hash : Vector Word 8) (block : Vector Byte 64) :
    Tidy (compress (p := p) hash block) fun _ => True := by
  refine Compiles.tidy (N := blockLabels.map Label.name) ?_
    (Naming.distinct_of_labels nodup_blockLabels)
  rw [blockLabels, List.map_append, List.map_append, List.map_map]
  have hschedule : Compiles (((List.range' 16 48).flatMap wordLabels).map Label.name)
      (schedule (p := p) block) fun ws => ws.length = 64 := by
    have hextend := (compiles_extend hcap 48 16 (wordsOf block)).bind (M := [])
      (f := fun later => pure ((wordsOf block).toList ++ later)) (R := fun ws => ws.length = 64)
      fun later hlater => Compiles.pure (by rw [List.length_append, Vector.length_toList, hlater])
    rw [List.append_nil] at hextend
    exact hextend
  refine hschedule.bind fun ws hws => ?_
  -- as many words as constants, so that no round is left out
  have hlength : (roundConstants.zip ws).length = 64 := by
    rw [List.length_zip, hws]
    rfl
  have hrounds := compiles_rounds hcap 0 (roundConstants.zip ws) hash
  rw [hlength] at hrounds
  refine hrounds.bind fun r _ => ?_
  exact (Compiles.tabulate (Q := fun _ _ => True) fun i : Fin 8 =>
    (Bits.tidy_addMany _ (sumWidth_le hcap (by simp))).within).mono fun _ _ => trivial

end Compiling

end RankOne.Sha256
