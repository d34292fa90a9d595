import RankOne.Proofs.Cells
import RankOne.Proofs.Decomposition

/-!
# Vectors — integers of a fixed width

    An integer in a circuit reads as a bit vector when each of its bits is the
    digit at its place.  What "is" means is left open at first: rotating,
    shifting and regrouping bits moves them without looking at them, so that
    one lemma serves the bits of an assignment and the bits of a run.  A shift
    is one as long as no place that it takes a bit from wraps around, which is
    so where the width and the distance add up to at most `2 ^ 64`.

    Gates on integers read off the gates on bits.  Addition is where the field
    has to be large enough: the sum of all operands must not wrap around.
-/

namespace RankOne

open Build

variable {p : Nat} [Modulus p] {w : Nat}

namespace Bits

/-- Each bit is, as `P` has it, the digit of the integer at its place. -/
def Reads (P : Bit → Bool → Prop) (x : Bits w) (v : BitVec w) : Prop :=
  ∀ i (hi : i < w), P x.bits[i] (v.getLsbD i)

/-- The integer is worth `v` under an assignment. -/
def Is (z : Variable → Fp p) (x : Bits w) (v : BitVec w) : Prop := x.Reads (Bit.Is z) v

/-- The integer has the value `v`, and is worth it. -/
def Live (t : Witness p) (x : Bits w) (v : BitVec w) : Prop :=
  x.value = some (cell v) ∧ x.Reads (Bit.Live t) v

/-- Bits alike, with the same value where the follower computes values. -/
structure Alike (m : Mode) (x y : Bits w) : Prop where
  bits : ∀ i (hi : i < w), x.bits[i].Alike m y.bits[i]
  solved : m.solves = true → x.value = y.value

/-! ## Bits of a result -/

theorem bits_constant (v : UInt64) (i : Nat) (hi : i < w) :
    (constant v : Bits w).bits[i] = .const (isSet (v &&& mask w) i) := by
  show (Vector.ofFn fun i : Fin w => Bit.const (isSet (v &&& mask w) i))[i] = _
  rw [Vector.getElem_ofFn]

/-- A constant is that of the low digits of its value. -/
theorem constant_eq (v : UInt64) :
    (constant v : Bits w) = constant (cell (BitVec.ofNat w v.toNat)) := by
  rw [constant, constant, cell_and_mask, and_mask]

/-- Every bit of a rotated word is the bit that lies the distance ahead, around
    the end. -/
theorem bits_rotateRight (x : Bits w) (k i : Nat) (hi : i < w) : (x.rotateRight k).bits[i]
    = x.bits.get ⟨(i + k) % w, Nat.mod_lt _ (Nat.zero_lt_of_lt hi)⟩ := by
  show (Vector.ofFn fun j : Fin w => x.bits.get _)[i] = _
  rw [Vector.getElem_ofFn]
  simp only [Nat.add_mod_mod]

/-- Where no place wraps around, a shift takes each bit from the place that is
    the distance away. -/
theorem bits_shiftRight (x : Bits w) {k : UInt64} (hk : w + k.toNat ≤ 2 ^ 64) (i : Nat)
    (hi : i < w) : (x.shiftRight k).bits[i] = x.bits[i + k.toNat]?.getD (.const false) := by
  have hplace : (UInt64.ofNat i + k).toNat = i + k.toNat := by
    rw [UInt64.toNat_add, UInt64.toNat_ofNat', Nat.mod_add_mod, Nat.mod_eq_of_lt (by omega)]
  show (Vector.ofFn fun j : Fin w =>
    x.bits[(UInt64.ofNat j + k).toNat]?.getD (.const false))[i] = _
  rw [Vector.getElem_ofFn, hplace]

/-! ## Moving bits -/

section Reads

variable {P : Bit → Bool → Prop} {x : Bits w} {v : BitVec w}

theorem Reads.imp {R : Bit → Bool → Prop} (h : x.Reads P v) (hPR : ∀ b u, P b u → R b u) :
    x.Reads R v :=
  fun i hi => hPR _ _ (h i hi)

/-- A constant that fits in the cache reads as itself. -/
theorem reads_constant (hconst : ∀ b, P (.const b) b) (v : BitVec w)
    (hw : w ≤ 64 := by decide) : (constant (cell v)).Reads P v := by
  intro i hi
  rw [bits_constant, cell_and_mask, isSet_eq _ (hi.trans_le hw), getLsbD_cell,
    decide_eq_true (hi.trans_le hw), Bool.true_and]
  exact hconst _

/-- A rotated word reads as the rotated number. -/
theorem Reads.rotateRight (h : x.Reads P v) (k : Nat) :
    (x.rotateRight k).Reads P (v.rotateRight k) := by
  intro i hi
  rw [bits_rotateRight, getLsbD_rotateRight' v k i hi]
  exact h _ _

/-- Within the reach of the place numbers a shift reads as the shifted number;
    what comes in from above is not set. -/
theorem Reads.shiftRight (hfalse : P (.const false) false) (h : x.Reads P v) (k : UInt64)
    (hk : w + k.toNat ≤ 2 ^ 64 := by decide) : (x.shiftRight k).Reads P (v >>> k.toNat) := by
  intro i hi
  rw [bits_shiftRight x hk i hi, BitVec.getLsbD_ushiftRight, Nat.add_comm k.toNat i]
  by_cases hik : i + k.toNat < w
  · rw [Vector.getElem?_eq_getElem hik]
    exact h _ hik
  · rw [Vector.getElem?_eq_none (not_lt.mp hik), BitVec.getLsbD_of_ge v _ (not_lt.mp hik)]
    exact hfalse

/-- A negated word reads as the complement. -/
theorem Reads.not (hnot : ∀ b u, P b u → P b.not !u) (h : x.Reads P v) :
    x.not.Reads P (~~~v) := by
  intro i hi
  have hget : x.not.bits[i] = x.bits[i].not := Vector.getElem_map _ _
  rw [hget, BitVec.getLsbD_not, decide_eq_true hi, Bool.true_and]
  exact hnot _ _ (h i hi)

/-- The low digits of a number, with zeros where it has none. -/
theorem reads_low (hfalse : P (.const false) false) {n N : Nat} {digits : Vector Bit n}
    (h : ∀ i (hi : i < n), P digits[i] (N.testBit i)) (hN : N < 2 ^ n) :
    (ofBits (.ofFn fun i : Fin w => digits[i.val]?.getD (.const false))).Reads P
      (BitVec.ofNat w N) := by
  intro i hi
  show P ((Vector.ofFn fun i : Fin w => digits[i.val]?.getD (.const false))[i]) _
  rw [Vector.getElem_ofFn, BitVec.getLsbD_ofNat, decide_eq_true hi, Bool.true_and]
  by_cases hin : i < n
  · rw [Vector.getElem?_eq_getElem hin]
    exact h i hin
  -- a number has no digits past the last place that it needs
  · rw [Vector.getElem?_eq_none (not_lt.mp hin),
      Nat.testBit_lt_two_pow (hN.trans_le (Nat.pow_le_pow_right Nat.two_pos (not_lt.mp hin)))]
    exact hfalse

end Reads

/-! ## Values -/

/-- A word that is worth a number spells it. -/
theorem Is.spells {z : Variable → Fp p} {x : Bits w} {v : BitVec w} (h : x.Is z v) :
    Bit.Spells z x.bits v.toNat := h

/-- A live word is worth its number in every assignment that fits. -/
theorem Live.is {t : Witness p} {x : Bits w} {v : BitVec w} (h : x.Live t v) {z : Variable → Fp p}
    (hz : t.Fits z) : x.Is z v :=
  h.2.imp fun _ _ hb => hb.2 z hz

theorem Live.mono {t t' : Witness p} {x : Bits w} {v : BitVec w} (h : t ≤ t') (hx : x.Live t v) :
    x.Live t' v :=
  ⟨hx.1, hx.2.imp fun _ _ hb => hb.mono h⟩

/-- A constant has its integer from the start. -/
theorem live_constant (t : Witness p) (v : BitVec w) (hw : w ≤ 64 := by decide) :
    (constant (cell v)).Live t v :=
  ⟨congrArg some (cell_and_mask v), reads_constant (Bit.Live.const t) v hw⟩

/-- The cache is rotated as the bits are. -/
theorem Live.rotateRight {t : Witness p} {x : Bits w} {v : BitVec w} (h : x.Live t v) (k : Nat)
    (hw : w ≤ 64 := by decide) : (x.rotateRight k).Live t (v.rotateRight k) := by
  refine ⟨?_, h.2.rotateRight k⟩
  show x.value.map _ = _
  rw [h.1, Option.map_some, cell_rotateRight hw]

/-- The cache is shifted as the bits are. -/
theorem Live.shiftRight {t : Witness p} {x : Bits w} {v : BitVec w} (h : x.Live t v) (k : UInt64)
    (hw : w ≤ 64 := by decide) (hk : w + k.toNat ≤ 2 ^ 64 := by decide) :
    (x.shiftRight k).Live t (v >>> k.toNat) := by
  refine ⟨?_, h.2.shiftRight (Bit.Live.const t false) k hk⟩
  show x.value.map _ = _
  rw [h.1, Option.map_some, cell_shiftRight hw]

/-- The cache is complemented below the width only. -/
theorem Live.not {t : Witness p} {x : Bits w} {v : BitVec w} (h : x.Live t v) :
    x.not.Live t (~~~v) := by
  refine ⟨?_, h.2.not fun _ _ => Bit.Live.not⟩
  show x.value.map _ = _
  rw [h.1, Option.map_some, cell_not]

/-- The cache of an integer put together from bits, where the bits are known. -/
theorem value_ofBits {bits : Vector Bit w} {v : BitVec w}
    (h : ∀ i (hi : i < w), bits[i].value = some (v.getLsbD i)) :
    (ofBits bits).value = some (cell v) := by
  have hdigits : List.Forall₂ (fun b c => b.value = some c) bits.toList
      ((List.range w).map v.getLsbD) := Bit.forall₂_digits (v := v.toNat) h
  show (bits.toList.mapM Bit.value).map wordOfBits = _
  rw [Bit.values_of_known hdigits, Option.map_some, wordOfBits_digits]

/-- An integer put together from bits has the value that they spell. -/
theorem live_ofBits {t : Witness p} {bits : Vector Bit w} {v : BitVec w}
    (h : ∀ i (hi : i < w), bits[i].Live t (v.getLsbD i)) : (ofBits bits).Live t v :=
  ⟨value_ofBits fun i hi => (h i hi).1, h⟩

/-! ## Bits alike -/

section Moved

variable {B : Bit → Bit → Prop} {x y : Bits w}

/-- Bits that are moved are related as they were. -/
theorem rel_rotateRight (h : ∀ i (hi : i < w), B x.bits[i] y.bits[i]) (k : Nat) :
    ∀ i (hi : i < w), B (x.rotateRight k).bits[i] (y.rotateRight k).bits[i] := by
  intro i hi
  rw [bits_rotateRight, bits_rotateRight]
  exact h _ _

/-- Entries at the same place, or a zero where there are none. -/
private theorem rel_getD (hfalse : B (.const false) (.const false)) {n : Nat}
    {bits bits' : Vector Bit n} (h : ∀ i (hi : i < n), B bits[i] bits'[i]) (i : Nat) :
    B (bits[i]?.getD (.const false)) (bits'[i]?.getD (.const false)) := by
  by_cases hin : i < n
  · rw [Vector.getElem?_eq_getElem hin, Vector.getElem?_eq_getElem hin]
    exact h i hin
  · rw [Vector.getElem?_eq_none (not_lt.mp hin), Vector.getElem?_eq_none (not_lt.mp hin)]
    exact hfalse

/-- A shift takes the bits of two integers from the same places, also where
    those wrap around. -/
theorem rel_shiftRight (hfalse : B (.const false) (.const false))
    (h : ∀ i (hi : i < w), B x.bits[i] y.bits[i]) (k : UInt64) :
    ∀ i (hi : i < w), B (x.shiftRight k).bits[i] (y.shiftRight k).bits[i] := by
  intro i hi
  show B (Vector.ofFn fun j : Fin w => x.bits[(UInt64.ofNat j + k).toNat]?.getD _)[i]
    (Vector.ofFn fun j : Fin w => y.bits[(UInt64.ofNat j + k).toNat]?.getD _)[i]
  rw [Vector.getElem_ofFn, Vector.getElem_ofFn]
  exact rel_getD hfalse h _

/-- The low digits of numbers are related as all of their digits are. -/
theorem rel_low (hfalse : B (.const false) (.const false)) {n : Nat} {digits digits' : Vector Bit n}
    (h : ∀ i (hi : i < n), B digits[i] digits'[i]) :
    ∀ i (hi : i < w), B (Vector.ofFn fun j : Fin w => digits[j.val]?.getD (.const false))[i]
      (Vector.ofFn fun j : Fin w => digits'[j.val]?.getD (.const false))[i] := by
  intro i hi
  rw [Vector.getElem_ofFn, Vector.getElem_ofFn]
  exact rel_getD hfalse h i

end Moved

section Alike

variable {m : Mode} {x y : Bits w}

theorem alike_refl (m : Mode) (x : Bits w) : x.Alike m x :=
  ⟨fun _ _ => Bit.alike_refl m _, fun _ => rfl⟩

/-- A follower that computes values has what its leader has. -/
theorem Alike.eq (h : x.Alike m y) (hm : m.solves = true) : x = y := by
  obtain ⟨bits, value⟩ := x
  obtain ⟨bits', value'⟩ := y
  have hbits : bits = bits' := Vector.ext fun i hi => (h.bits i hi).eq hm
  have hvalue : value = value' := h.solved hm
  rw [hbits, hvalue]

/-- Words alike are rotated alike. -/
theorem Alike.rotateRight (h : x.Alike m y) (k : Nat) :
    (x.rotateRight k).Alike m (y.rotateRight k) :=
  ⟨rel_rotateRight h.bits k, fun hm => congrArg (Option.map _) (h.solved hm)⟩

/-- They are shifted alike, whatever wraps around. -/
theorem Alike.shiftRight (h : x.Alike m y) (k : UInt64) :
    (x.shiftRight k).Alike m (y.shiftRight k) :=
  ⟨rel_shiftRight (.const false) h.bits k, fun hm => congrArg (Option.map _) (h.solved hm)⟩

theorem Alike.not (h : x.Alike m y) : x.not.Alike m y.not := by
  refine ⟨fun i hi => ?_, fun hm => congrArg (Option.map _) (h.solved hm)⟩
  show ((x.bits.map Bit.not)[i]).Alike m ((y.bits.map Bit.not)[i])
  rw [Vector.getElem_map, Vector.getElem_map]
  exact (h.bits i hi).not

/-- Words of bits alike are alike, with integers read off them. -/
theorem alike_ofBits {bits bits' : Vector Bit w} (h : ∀ i (hi : i < w), bits[i].Alike m bits'[i]) :
    (ofBits bits).Alike m (ofBits bits') := by
  refine ⟨h, fun hm => ?_⟩
  show (bits.toList.mapM Bit.value).map _ = (bits'.toList.mapM Bit.value).map _
  rw [Bit.values_alike (Bit.forall₂_alike h) hm]

theorem Alike.lc (h : x.Alike m y) (c : Fp p) : x.lc c = y.lc c :=
  Bit.weighted_alike (Bit.forall₂_alike h.bits) c

end Alike

/-! ## Gates, bit by bit -/

/-- Bits that are built one by one, each in its own namespace. -/
theorem honest_eachBit {t : Witness p} {body : Fin w → Build p SynthesisError Bit} {v : BitVec w}
    (h : ∀ (i : Fin w) t', t ≤ t' →
      Honest t' (body i) fun t'' r => Bit.Live t'' r (v.getLsbD i)) :
    Honest t (Build.tabulate fun i => Build.within s!"b{i}" (body i)) fun t' bits =>
      ∀ i (hi : i < w), bits[i].Live t' (v.getLsbD i) :=
  Honest.tabulate (Q := fun i t' r => Bit.Live t' r (v.getLsbD i))
    (fun _ _ _ _ hle hr => hr.mono hle) fun i t' hle => (h i t' hle).within

omit [Modulus p] in
/-- The names in a loop over places are told apart by their numbers. -/
theorem tidy_eachBit {α : Type} {body : Fin w → Build p SynthesisError α}
    (h : ∀ i, Tidy (body i) fun _ => True) :
    Tidy (Build.tabulate fun i => Build.within s!"b{i}" (body i)) fun _ => True :=
  ((Compiles.tabulate fun i => (h i).within).mono fun _ _ => trivial).tidy
    (Naming.distinct_counted "b" (by decide) List.nodup_range)

section Bitwise

variable {gate : Bit → Bit → Build p SynthesisError Bit} {f : Bool → Bool → Bool}
  {op : BitVec w → BitVec w → BitVec w} {onValues : UInt64 → UInt64 → UInt64}

/-- What a gate forces of two bits a word of gates forces of two words. -/
theorem forces_bitwise {z : Variable → Fp p} (hgate : ∀ a b, Forces z (gate a b) fun r =>
      ∀ x y, a.Is z x → b.Is z y → r.Is z (f x y))
    (hop : ∀ v u i, i < w → (op v u).getLsbD i = f (v.getLsbD i) (u.getLsbD i))
    (a b : Bits w) : Forces z (bitwise gate onValues a b) fun r =>
      ∀ v u, a.Is z v → b.Is z u → r.Is z (op v u) := by
  refine (Forces.tabulate fun i : Fin w => (hgate a.bits[i] b.bits[i]).within).bind
    fun bits => Forces.pure ?_
  intro hbits v u ha hb i hi
  rw [hop v u i hi]
  exact hbits i hi _ _ (ha i hi) (hb i hi)

/-- What an honest gate gives of two bits an honest word of gates gives of two
    words, with its cache. -/
theorem honest_bitwise {t : Witness p} (hgate : ∀ t' a b x y, a.Live t' x → b.Live t' y →
      Honest t' (gate a b) fun t'' r => Bit.Live t'' r (f x y))
    (hop : ∀ v u i, i < w → (op v u).getLsbD i = f (v.getLsbD i) (u.getLsbD i))
    (hvalues : ∀ v u, onValues (cell v) (cell u) = cell (op v u))
    {a b : Bits w} {v u : BitVec w} (ha : a.Live t v) (hb : b.Live t u) :
    Honest t (bitwise gate onValues a b) fun t' r => r.Live t' (op v u) := by
  refine (honest_eachBit (v := op v u) fun i t' hle => ?_).bind
    fun t₁ bits _ hbits => Honest.pure fun t₂ hle => ⟨?_, fun i hi => (hbits i hi).mono hle⟩
  · rw [hop v u i i.isLt]
    exact hgate t' _ _ _ _ ((ha.2 i i.isLt).mono hle) ((hb.2 i i.isLt).mono hle)
  · rw [← hvalues v u, ha.1, hb.1]
    rfl

omit [Modulus p] in
/-- Words of gates run alike where the gates do. -/
theorem follows_bitwise {m m' : Mode} (hgate : ∀ a a' b b', a.Alike m a' → b.Alike m b' →
      Follows m m' (gate a b) (gate a' b') (Bit.Alike m)) {a a' b b' : Bits w}
    (ha : a.Alike m a') (hb : b.Alike m b') :
    Follows m m' (bitwise gate onValues a b) (bitwise gate onValues a' b') (Alike m) := by
  refine (Follows.tabulate fun i : Fin w => (hgate _ _ _ _ (ha.bits i i.isLt)
    (hb.bits i i.isLt)).within).bind fun bits bits' hbits => Follows.pure ⟨hbits, fun hm => ?_⟩
  rw [ha.solved hm, hb.solved hm]

omit [Modulus p] in
/-- Every gate has a namespace of its own. -/
theorem tidy_bitwise (hgate : ∀ a b, Tidy (gate a b) fun _ => True) (a b : Bits w) :
    Tidy (bitwise gate onValues a b) fun _ => True :=
  (tidy_eachBit fun _ => hgate _ _).map

end Bitwise

section Bitwise₃

variable {gate : Bit → Bit → Bit → Build p SynthesisError Bit} {f : Bool → Bool → Bool → Bool}
  {op : BitVec w → BitVec w → BitVec w → BitVec w} {onValues : UInt64 → UInt64 → UInt64 → UInt64}

/-- The same of gates on three bits. -/
theorem forces_bitwise₃ {z : Variable → Fp p} (hgate : ∀ a b c, Forces z (gate a b c) fun r =>
      ∀ x y o, a.Is z x → b.Is z y → c.Is z o → r.Is z (f x y o))
    (hop : ∀ v u o i, i < w →
      (op v u o).getLsbD i = f (v.getLsbD i) (u.getLsbD i) (o.getLsbD i))
    (a b c : Bits w) : Forces z (bitwise₃ gate onValues a b c) fun r =>
      ∀ v u o, a.Is z v → b.Is z u → c.Is z o → r.Is z (op v u o) := by
  refine (Forces.tabulate fun i : Fin w =>
    (hgate a.bits[i] b.bits[i] c.bits[i]).within).bind fun bits => Forces.pure ?_
  intro hbits v u o ha hb hc i hi
  rw [hop v u o i hi]
  exact hbits i hi _ _ _ (ha i hi) (hb i hi) (hc i hi)

/-- Honest gates on three bits give honest words. -/
theorem honest_bitwise₃ {t : Witness p} (hgate : ∀ t' a b c x y o, a.Live t' x → b.Live t' y →
      c.Live t' o → Honest t' (gate a b c) fun t'' r => Bit.Live t'' r (f x y o))
    (hop : ∀ v u o i, i < w →
      (op v u o).getLsbD i = f (v.getLsbD i) (u.getLsbD i) (o.getLsbD i))
    (hvalues : ∀ v u o, onValues (cell v) (cell u) (cell o) = cell (op v u o))
    {a b c : Bits w} {v u o : BitVec w} (ha : a.Live t v) (hb : b.Live t u) (hc : c.Live t o) :
    Honest t (bitwise₃ gate onValues a b c) fun t' r => r.Live t' (op v u o) := by
  refine (honest_eachBit (v := op v u o) fun i t' hle => ?_).bind
    fun t₁ bits _ hbits => Honest.pure fun t₂ hle => ⟨?_, fun i hi => (hbits i hi).mono hle⟩
  · rw [hop v u o i i.isLt]
    exact hgate t' _ _ _ _ _ _ ((ha.2 i i.isLt).mono hle) ((hb.2 i i.isLt).mono hle)
      ((hc.2 i i.isLt).mono hle)
  · rw [← hvalues v u o, ha.1, hb.1, hc.1]
    rfl

omit [Modulus p] in
/-- Gates on three bits that run alike make words that do. -/
theorem follows_bitwise₃ {m m' : Mode} (hgate : ∀ a a' b b' c c', a.Alike m a' → b.Alike m b' →
      c.Alike m c' → Follows m m' (gate a b c) (gate a' b' c') (Bit.Alike m))
    {a a' b b' c c' : Bits w} (ha : a.Alike m a') (hb : b.Alike m b') (hc : c.Alike m c') :
    Follows m m' (bitwise₃ gate onValues a b c) (bitwise₃ gate onValues a' b' c') (Alike m) := by
  refine (Follows.tabulate fun i : Fin w => (hgate _ _ _ _ _ _ (ha.bits i i.isLt)
    (hb.bits i i.isLt) (hc.bits i i.isLt)).within).bind
    fun bits bits' hbits => Follows.pure ⟨hbits, fun hm => ?_⟩
  rw [ha.solved hm, hb.solved hm, hc.solved hm]

omit [Modulus p] in
theorem tidy_bitwise₃ (hgate : ∀ a b c, Tidy (gate a b c) fun _ => True) (a b c : Bits w) :
    Tidy (bitwise₃ gate onValues a b c) fun _ => True :=
  (tidy_eachBit fun _ => hgate _ _ _).map

end Bitwise₃

/-! ## The gates that are used -/

/-- Choosing between integers chooses digit by digit. -/
theorem getLsbD_choose (v u o : BitVec w) (i : Nat) (hi : i < w) :
    ((v &&& u) ^^^ (~~~v &&& o)).getLsbD i
      = Bit.choice (v.getLsbD i) (u.getLsbD i) (o.getLsbD i) := by
  rw [BitVec.getLsbD_xor, BitVec.getLsbD_and, BitVec.getLsbD_and, BitVec.getLsbD_not,
    decide_eq_true hi, Bool.true_and]
  rfl

/-- The majority of integers is that of their digits. -/
theorem getLsbD_majority (v u o : BitVec w) (i : Nat) (_ : i < w) :
    ((v &&& u) ^^^ (v &&& o) ^^^ (u &&& o)).getLsbD i
      = Bit.most (v.getLsbD i) (u.getLsbD i) (o.getLsbD i) := by
  rw [BitVec.getLsbD_xor, BitVec.getLsbD_xor, BitVec.getLsbD_and, BitVec.getLsbD_and,
    BitVec.getLsbD_and]
  rfl

section Forces

variable {z : Variable → Fp p} (one : z .one = 1)

include one

/-- The rows force the exclusive or of the two numbers. -/
theorem forces_xor (a b : Bits w) : Forces z (xor (p := p) a b) fun r =>
    ∀ v u, a.Is z v → b.Is z u → r.Is z (v ^^^ u) := by
  refine forces_bitwise (f := Bool.xor) (fun a b => ?_) (fun _ _ _ _ => BitVec.getLsbD_xor) a b
  refine (Bit.forces_xor one a b).mono fun r hr x y ha hb => ?_
  rw [Bit.Is, hr, ha, hb, Fp.ofBool_xor]

theorem forces_and (a b : Bits w) : Forces z (and (p := p) a b) fun r =>
    ∀ v u, a.Is z v → b.Is z u → r.Is z (v &&& u) := by
  refine forces_bitwise (f := Bool.and) (fun a b => ?_) (fun _ _ _ _ => BitVec.getLsbD_and) a b
  refine (Bit.forces_and one a b).mono fun r hr x y ha hb => ?_
  rw [Bit.Is, hr, ha, hb, Fp.ofBool_and]

/-- The rows force the choice that the first number's digits make between the
    other two. -/
theorem forces_choose (a b c : Bits w) : Forces z (choose (p := p) a b c) fun r =>
    ∀ v u o, a.Is z v → b.Is z u → c.Is z o → r.Is z ((v &&& u) ^^^ (~~~v &&& o)) := by
  refine forces_bitwise₃ (f := Bit.choice) (fun a b c => ?_) getLsbD_choose a b c
  refine (Bit.forces_choose one a b c).mono fun r hr x y o ha hb hc => ?_
  rw [Bit.Is, hr, ha, hb, hc, Fp.ofBool_choice]

/-- The rows force the majority of the three numbers, digit by digit. -/
theorem forces_majority (a b c : Bits w) : Forces z (majority (p := p) a b c) fun r =>
    ∀ v u o, a.Is z v → b.Is z u → c.Is z o →
      r.Is z ((v &&& u) ^^^ (v &&& o) ^^^ (u &&& o)) := by
  refine forces_bitwise₃ (f := Bit.most) (fun a b c => ?_) getLsbD_majority a b c
  refine (Bit.forces_majority one a b c).mono fun r hr x y o ha hb hc => ?_
  rw [Bit.Is, hr, ha, hb, hc, Fp.ofBool_most]

end Forces

section Honest

variable {t : Witness p} {a b c : Bits w} {v u o : BitVec w}

/-- Live words have a live exclusive or. -/
theorem honest_xor (ha : a.Live t v) (hb : b.Live t u) :
    Honest t (xor (p := p) a b) fun t' r => r.Live t' (v ^^^ u) :=
  honest_bitwise (f := Bool.xor) (fun _ _ _ _ _ => Bit.honest_xor)
    (fun _ _ _ _ => BitVec.getLsbD_xor) cell_xor ha hb

theorem honest_and (ha : a.Live t v) (hb : b.Live t u) :
    Honest t (and (p := p) a b) fun t' r => r.Live t' (v &&& u) :=
  honest_bitwise (f := Bool.and) (fun _ _ _ _ _ => Bit.honest_and)
    (fun _ _ _ _ => BitVec.getLsbD_and) cell_and ha hb

/-- Live words have a live choice. -/
theorem honest_choose (ha : a.Live t v) (hb : b.Live t u) (hc : c.Live t o) :
    Honest t (choose (p := p) a b c) fun t' r => r.Live t' ((v &&& u) ^^^ (~~~v &&& o)) :=
  honest_bitwise₃ (fun _ _ _ _ _ _ _ => Bit.honest_choose) getLsbD_choose cell_choose
    ha hb hc

/-- Live words have a live majority. -/
theorem honest_majority (ha : a.Live t v) (hb : b.Live t u) (hc : c.Live t o) :
    Honest t (majority (p := p) a b c) fun t' r =>
      r.Live t' ((v &&& u) ^^^ (v &&& o) ^^^ (u &&& o)) :=
  honest_bitwise₃ (fun _ _ _ _ _ _ _ => Bit.honest_majority) getLsbD_majority cell_majority
    ha hb hc

end Honest

section Follows

variable {m m' : Mode} [Mode.AsksLess m m'] {a a' b b' c c' : Bits w} (ha : a.Alike m a')
  (hb : b.Alike m b')

include ha hb

theorem follows_xor : Follows m m' (xor (p := p) a b) (xor a' b') (Alike m) :=
  follows_bitwise (fun _ _ _ _ => Bit.follows_xor) ha hb

theorem follows_and : Follows m m' (and (p := p) a b) (and a' b') (Alike m) :=
  follows_bitwise (fun _ _ _ _ => Bit.follows_and) ha hb

theorem follows_choose (hc : c.Alike m c') :
    Follows m m' (choose (p := p) a b c) (choose a' b' c') (Alike m) :=
  follows_bitwise₃ (fun _ _ _ _ _ _ => Bit.follows_choose) ha hb hc

theorem follows_majority (hc : c.Alike m c') :
    Follows m m' (majority (p := p) a b c) (majority a' b' c') (Alike m) :=
  follows_bitwise₃ (fun _ _ _ _ _ _ => Bit.follows_majority) ha hb hc

end Follows

section Compiling

variable (a b c : Bits w)

theorem tidy_xor : Tidy (xor (p := p) a b) fun _ => True := tidy_bitwise Bit.tidy_xor a b

theorem tidy_and : Tidy (and (p := p) a b) fun _ => True := tidy_bitwise Bit.tidy_and a b

theorem tidy_choose : Tidy (choose (p := p) a b c) fun _ => True :=
  tidy_bitwise₃ Bit.tidy_choose a b c

theorem tidy_majority : Tidy (majority (p := p) a b c) fun _ => True :=
  tidy_bitwise₃ Bit.tidy_majority a b c

end Compiling

/-! ## Integers that are allocated -/

/-- Bits that are allocated are truth values, whatever they were meant to be. -/
theorem forces_alloc {z : Variable → Fp p} (hp : p.Prime) (one : z .one = 1)
    (value : Option UInt64) :
    Forces z (alloc (w := w) (p := p) value) fun x => ∃ v, x.Is z v := by
  refine (Forces.tabulate fun _ => (BitVar.forces_alloc hp one _).within).bind
    fun bits => Forces.pure fun hbits => ?_
  have hspells : ∀ i (hi : i < w), ∃ v, ((bits.map Bit.pos)[i]).Is z v := by
    intro i hi
    rw [Vector.getElem_map]
    exact hbits i hi
  obtain ⟨n, _, hn⟩ := Bit.exists_spells hspells
  refine ⟨BitVec.ofNat w n, fun i hi => ?_⟩
  rw [BitVec.getLsbD_ofNat, decide_eq_true hi, Bool.true_and]
  exact hn i hi

/-- An allocated integer has the low digits of the value that was asked for. -/
theorem honest_alloc {t : Witness p} (v : UInt64) (hw : w ≤ 64) :
    Honest t (alloc (p := p) (some v)) fun t' x => x.Live t' (BitVec.ofNat w v.toNat) := by
  have hbits : Honest t (Build.tabulate fun i : Fin w => Build.within s!"b{i}" <|
      BitVar.alloc (p := p) (some (isSet v i))) fun t' bits =>
      ∀ i (hi : i < w), (bits[i]).Live t' (isSet v i) :=
    Honest.tabulate (Q := fun i t' x => BitVar.Live t' x (isSet v i))
      (fun _ _ _ _ hle hx => hx.mono hle) fun i _ _ => (BitVar.honest_alloc (isSet v i)).within
  refine hbits.bind fun t₁ bits _ h => Honest.pure fun t₂ hle => ⟨?_, fun i hi => ?_⟩
  · exact congrArg some (and_mask v)
  · rw [Vector.getElem_map, ← isSet_ofNat v hi hw]
    exact Bit.live_pos.mpr ((h i hi).mono hle)

/-- Words are allocated alike for integers that are the same where the follower
    looks at them. -/
theorem follows_alloc {m m' : Mode} [Mode.AsksLess m m'] {v v' : Option UInt64}
    (h : m.solves = true → v = v') :
    Follows m m' (alloc (w := w) (p := p) v) (alloc v') (Alike m) := by
  refine (Follows.tabulate fun i : Fin w => (BitVar.follows_alloc fun hm => ?_).within).bind
    fun bits bits' hbits => Follows.pure ⟨fun i hi => ?_, fun hm => ?_⟩
  · rw [h hm]
  · rw [Vector.getElem_map, Vector.getElem_map]
    exact .pos (hbits i hi)
  · exact congrArg (Option.map _) (h hm)

/-- An integer that is allocated names its bits by their places. -/
theorem tidy_alloc (value : Option UInt64) :
    Tidy (alloc (w := w) (p := p) value) fun _ => True := by
  have hbits : Tidy (Build.tabulate fun i : Fin w => Build.within s!"b{i}" <|
      BitVar.alloc (p := p) (value.map (isSet · i))) fun _ => True :=
    tidy_eachBit fun i => BitVar.tidy_alloc _
  exact Tidy.map (g := fun bits : Vector BitVar w =>
    (⟨bits.map .pos, value.map (· &&& mask w)⟩ : Bits w)) hbits

end Bits

end RankOne
