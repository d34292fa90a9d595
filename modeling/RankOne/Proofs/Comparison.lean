import RankOne.Proofs.Lockstep

/-!
# Comparisons — what is true of two runs in more than one sense

    Runs of a circuit are compared in several ways: a follower does what its
    leader does where the leader succeeds, compiling runs come to one outcome,
    and runs on other operands may still be of one size.  What a gadget made of
    other gadgets has to show is the same for all of these.  A `Likeness` says
    what operands have in common, and a `Comparison` lists the rules for the
    circuits on them, put together and for the gadgets on words that the
    others are made of, so that the rest is shown once.
-/

namespace RankOne

open Build

/-- A way to liken operands; `lin` is for combinations that are split into
    digits.  What wires make of integers has to be as alike as they are. -/
structure Likeness (p : Nat) where
  bit : Bit → Bit → Prop
  bits : {w : Nat} → Bits w → Bits w → Prop
  lin : LinNum p → LinNum p → Prop
  constant : ∀ {w : Nat} (v : UInt64), bits (.constant v : Bits w) (.constant v)
  ofBits : ∀ {w : Nat} {xs ys : Vector Bit w}, Each bit xs ys → bits (.ofBits xs) (.ofBits ys)
  each : ∀ {w : Nat} {x y : Bits w}, bits x y → Each bit x.bits y.bits
  rotateRight : ∀ {w : Nat} {x y : Bits w}, bits x y → ∀ k,
    bits (x.rotateRight k) (y.rotateRight k)
  shiftRight : ∀ {w : Nat} {x y : Bits w}, bits x y → ∀ k, bits (x.shiftRight k) (y.shiftRight k)

namespace Likeness

variable {p : Nat}

/-- Operands with the same structure, and with the same values in a mode that
    computes any. -/
@[reducible] def alike (m : Mode) : Likeness p where
  bit := Bit.Alike m
  bits := Bits.Alike m
  lin := LinNum.Alike m
  constant _ := Bits.alike_refl m _
  ofBits := Bits.alike_ofBits
  each := Bits.Alike.bits
  rotateRight := Bits.Alike.rotateRight
  shiftRight := Bits.Alike.shiftRight

variable (L : Likeness p)

/-- Bytes alike make words alike. -/
theorem ofBytesBE {bytes bytes' : Vector Byte 4} (h : Each L.bits bytes bytes') :
    L.bits (Word.ofBytesBE bytes) (Word.ofBytesBE bytes') := by
  refine L.ofBits fun i hi => ?_
  rw [Vector.getElem_ofFn, Vector.getElem_ofFn]
  exact L.each (h _ _) _ _

/-- Words alike are cut into bytes alike. -/
theorem toBytesBE {x x' : Word} (h : L.bits x x') : Each L.bits x.toBytesBE x'.toBytesBE := by
  intro j hj
  have hget : ∀ x : Word,
      x.toBytesBE[j] = .ofBits (.ofFn fun i => x.bits[(3 - j) * 8 + i.val]) := by
    intro x
    simp [Word.toBytesBE]
  rw [hget, hget]
  refine L.ofBits fun i hi => ?_
  rw [Vector.getElem_ofFn, Vector.getElem_ofFn]
  exact L.each h _ _

end Likeness

variable {p : Nat} [Modulus p] {m : Mode}

/-- A way to compare two circuits: `rel` says that they compare and that their
    results are related, `num` how numbers are compared. -/
structure Comparison {p : Nat} [Modulus p] (L : Likeness p) where
  num : Num p → Num p → Prop
  rel : {α β : Type} → Build p SynthesisError α → Build p SynthesisError β →
    (α → β → Prop) → Prop
  pure : ∀ {α β : Type} {a : α} {b : β} {R : α → β → Prop}, R a b → rel (pure a) (pure b) R
  bind : ∀ {α β α' β' : Type} {x : Build p SynthesisError α} {y : Build p SynthesisError β}
    {f : α → Build p SynthesisError α'} {g : β → Build p SynthesisError β'} {R : α → β → Prop}
    {Q : α' → β' → Prop}, rel x y R → (∀ a b, R a b → rel (f a) (g b) Q) →
      rel (x >>= f) (y >>= g) Q
  within : ∀ {α β : Type} {name : String} {x : Build p SynthesisError α}
    {y : Build p SynthesisError β} {R : α → β → Prop}, rel x y R →
      rel (within name x) (within name y) R
  toBits : ∀ {x x' : LinNum p}, L.lin x x' → ∀ n : Nat, rel (x.toBits n) (x'.toBits n) (Each L.bit)
  ofBits : ∀ {bits bits' : List Bit}, List.Forall₂ L.bit bits bits' →
    rel (Num.ofBits bits) (Num.ofBits bits') num
  fromNum : ∀ {w : Nat} {x x' : Num p}, num x x' →
    rel (Bits.fromNum (w := w) x) (Bits.fromNum x') L.bits
  xor : ∀ {w : Nat} {a a' b b' : Bits w}, L.bits a a' → L.bits b b' →
    rel (Bits.xor a b) (Bits.xor a' b') L.bits
  choose : ∀ {w : Nat} {a a' b b' c c' : Bits w}, L.bits a a' → L.bits b b' → L.bits c c' →
    rel (Bits.choose a b c) (Bits.choose a' b' c') L.bits
  majority : ∀ {w : Nat} {a a' b b' c c' : Bits w}, L.bits a a' → L.bits b b' → L.bits c c' →
    rel (Bits.majority a b c) (Bits.majority a' b' c') L.bits
  addMany : ∀ {w : Nat} {xs xs' : List (Bits w)}, List.Forall₂ L.bits xs xs' →
    rel (Bits.addMany xs) (Bits.addMany xs') L.bits

namespace Comparison

/-- A run follows its leader. -/
def follows (m m' : Mode) [Mode.AsksLess m m'] : Comparison (p := p) (.alike m) where
  num := Num.Alike m
  rel := Follows m m'
  pure := Follows.pure
  bind := Follows.bind
  within := Follows.within
  toBits := LinNum.follows_toBits
  ofBits := Num.follows_ofBits
  fromNum := Bits.follows_fromNum
  xor := Bits.follows_xor
  choose := Bits.follows_choose
  majority := Bits.follows_majority
  addMany := Bits.follows_addMany

/-- Compiling runs come to one outcome. -/
def lockstep : Comparison (p := p) (.alike .compiling) where
  num := Eq
  rel := Lockstep Eq
  pure := Lockstep.pure
  bind := Lockstep.bind
  within := Lockstep.within
  toBits h := LinNum.lockstep_toBits h.comb
  ofBits := Num.lockstep_ofBits
  fromNum {w x x'} h := by
    rw [h]
    exact (Lockstep.same _).mono fun a b hab => hab ▸ Bits.alike_refl _ a
  xor := Bits.lockstep_xor
  choose := Bits.lockstep_choose
  majority := Bits.lockstep_majority
  addMany := Bits.lockstep_addMany

variable {L : Likeness p} (C : Comparison L) {α β α' β' : Type} {R : α → β → Prop}

private theorem tabulateTo {k : Nat} {f : Fin k → Build p SynthesisError α}
    {g : Fin k → Build p SynthesisError β} (h : ∀ i, C.rel (f i) (g i) R) (n : Nat) (le : n ≤ k) :
    C.rel (Build.tabulateTo f n le) (Build.tabulateTo g n le) (Each R) := by
  induction n with
  | zero => exact C.pure fun i hi => absurd hi (Nat.not_lt_zero i)
  | succ n ih =>
      apply C.bind (ih (by omega))
      intro v w hvw
      apply C.bind (h ⟨n, le⟩)
      intro a b hab
      exact C.pure (hvw.push hab)

/-- Loops compare where their rounds do. -/
theorem tabulate {n : Nat} {f : Fin n → Build p SynthesisError α}
    {g : Fin n → Build p SynthesisError β} (h : ∀ i, C.rel (f i) (g i) R) :
    C.rel (Build.tabulate f) (Build.tabulate g) (Each R) :=
  C.tabulateTo h n (Nat.le_refl n)

/-- So do loops over lists that are related. -/
theorem listMapM {f : α → Build p SynthesisError α'} {g : β → Build p SynthesisError β'}
    {R' : α' → β' → Prop} (h : ∀ x y, R x y → C.rel (f x) (g y) R') {xs : List α} {ys : List β}
    (hxy : List.Forall₂ R xs ys) : C.rel (xs.mapM f) (ys.mapM g) (List.Forall₂ R') := by
  induction hxy with
  | nil => exact C.pure .nil
  | cons hx _ ih =>
      rw [List.mapM_cons, List.mapM_cons]
      apply C.bind (h _ _ hx)
      intro a b hab
      apply C.bind ih
      intro as bs habs
      exact C.pure (.cons hab habs)

end Comparison

end RankOne
