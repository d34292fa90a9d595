import RankOne.Proofs.Answers
import RankOne.Proofs.Primes
import RankOne.Proofs.Words

/-!
# Recomposition — bits into numbers and numbers into bits

    Splitting a number and putting an integer together are inverse to each
    other as long as neither wraps around the modulus.  An integer is put
    together from at most as many bits as the field has room for, so that both
    round trips are exact.

    `fromNums` splits a number that was put together from a list of any length.
    A list longer than the capacity may write a number past the modulus.  Then
    what is split is its remainder, and the digits of that are not the ones of
    the list.
-/

namespace RankOne

open Build

variable {p : Nat} [Modulus p]

/-! ## Bits of a system -/

namespace Bit

/-- The variable under the bit, if there is one, has been counted. -/
def Allocated (s : System p) : Bit → Prop
  | .const _ => True
  | .pos x => s.Allocated x.var
  | .neg x => s.Allocated x.var

instance (s : System p) : DecidablePred (Allocated s)
  | .const _ => inferInstanceAs (Decidable True)
  | .pos x => inferInstanceAs (Decidable (s.Allocated x.var))
  | .neg x => inferInstanceAs (Decidable (s.Allocated x.var))

/-- A bit is worth the same under all assignments that keep its variable. -/
theorem val_congr {s : System p} {z z' : Variable → Fp p} (h : s.Agrees z z')
    (one : z .one = 1) {b : Bit} (hb : b.Allocated s) : b.val z' = b.val z := by
  cases b with
  | const c => rw [val_const one, val_const (h.one one)]
  | pos x => rw [val_pos, val_pos, h _ hb]
  | neg x => rw [val_neg one, val_neg (h.one one), h _ hb]

omit [Modulus p] in
theorem Alike.allocated {m : Mode} {s : System p} {b b' : Bit} (h : b.Alike m b')
    (hb : b.Allocated s) : b'.Allocated s := by
  cases h with
  | const c => exact hb
  | pos h =>
      rw [Allocated, h.var] at hb
      exact hb
  | neg h =>
      rw [Allocated, h.var] at hb
      exact hb

/-- A bit that is worth a truth value has that value in some run. -/
theorem exists_value (hp : p.Prime) {z : Variable → Fp p} (one : z .one = 1) {b : Bit} {c : Bool}
    (h : b.Is z c) : ∃ b', b.Alike .compiling b' ∧ b'.value = some c := by
  cases b with
  | const d =>
      have hdc : d = c := Fp.ofBool_injective hp ((val_const one d).symm.trans h)
      exact ⟨.const d, .const d, congrArg some hdc⟩
  | pos x => exact ⟨.pos ⟨x.var, some c⟩, .pos ⟨rfl, Bool.false_ne_true.elim⟩, rfl⟩
  | neg x =>
      refine ⟨.neg ⟨x.var, some !c⟩, .neg ⟨rfl, Bool.false_ne_true.elim⟩, ?_⟩
      exact congrArg some (Bool.not_not c)

end Bit

/-- A bit with a value that is right under an assignment that fits. -/
theorem System.Paired.live_bit {s u : System p} (h : s.Paired u) {z : Variable → Fp p}
    (hz : u.witness.Fits z) {b : Bit} {c : Bool} (hb : b.Allocated s) (hvalue : b.value = some c)
    (hc : b.Is z c) : b.Live u.witness c := by
  refine ⟨hvalue, fun z' hz' => ?_⟩
  exact (Bit.val_congr (h.agrees hz hz') hz.one hb).trans hc

/-- The element that the digits of a number are put together to. -/
def Fp.pack (vs : List (Fp p)) : Fp p := vs.foldr (fun v sum => v + sum.double) 0

/-- Digits that are zero or one pack as the number that they spell. -/
theorem Fp.pack_of_digits {vs : List (Fp p)} {bs : List Bool}
    (h : List.Forall₂ (fun v b => v = Fp.ofBool b) vs bs) :
    Fp.pack vs = (natOfBits bs : Fp p) := by
  have hdigits : List.Forall₂ (fun v b => id v = Fp.ofBool b) vs bs := h
  simp only [Fp.pack, Fp.double_eq]
  exact LinComb.foldr_digits hdigits

namespace Bits

variable {w : Nat}

/-- Each bit has a value, that of the digit of `v`. -/
def Spelt (x : Bits w) (v : BitVec w) : Prop := x.Reads (fun b c => b.value = some c) v

/-- Values that are right under an assignment are so in a run that fits it. -/
theorem Spelt.live {s u : System p} {z : Variable → Fp p} {x : Bits w} {v : BitVec w}
    (h : x.Spelt v) (hu : s.Paired u) (hz : u.witness.Fits z)
    (hx : ∀ i (hi : i < w), x.bits[i].Allocated s) (hv : x.Is z v) :
    x.Reads (Bit.Live u.witness) v :=
  fun i hi => hu.live_bit hz (hx i hi) (h i hi) (hv i hi)

/-- The sum of digits with doubling weights is worth their packing. -/
theorem eval_digitSum (z : Variable → Fp p) (xs : List (Num p)) :
    (digitSum xs).comb.eval z = Fp.pack (xs.map fun x => z x.var) := by
  have hterm : ∀ (c : Fp p) (x : Num p), (LinComb.single c x.var).eval z = c * z x.var :=
    fun c x => LinComb.eval_single z c x.var
  rw [digitSum, LinComb.eval_addDoubling z _ (fun x => z x.var) hterm, LinComb.eval_zero,
    zero_add, one_mul, Fp.pack, List.foldr_map]
  simp only [Fp.double_eq]

theorem live_digitSum {t : Witness p} {xs : List (Num p)} {vs : List (Fp p)}
    (h : List.Forall₂ (Num.Live t) xs vs) : (digitSum xs).Live t (Fp.pack vs) := by
  constructor
  · have hvalues : xs.mapM Num.value = some vs := by
      induction h with
      | nil => rfl
      | cons hx _ ih =>
          rw [List.mapM_cons, hx.1, ih]
          rfl
    rw [digitSum, hvalues]
    rfl
  · intro z hz
    have hxs : xs.map (fun x => z x.var) = vs := by
      induction h with
      | nil => rfl
      | cons hx _ ih => rw [List.map_cons, hx.eval hz, ih]
    rw [eval_digitSum, hxs]

/-- The rows of a recomposition force the digits of the packed number. -/
theorem forces_fromNums {z : Variable → Fp p} (hp : p.Prime) (one : z .one = 1)
    (xs : List (Num p)) :
    Forces z (fromNums (w := w) xs) fun r =>
      (Fp.pack (xs.map fun x => z x.var)).val < 2 ^ w ∧
        r.Is z (BitVec.ofNat w (Fp.pack (xs.map fun x => z x.var)).val) := by
  rw [← eval_digitSum]
  refine Forces.map ((LinNum.forces_toBits hp one _ w).within.mono fun bits h => ⟨h.1, ?_⟩)
  intro i hi
  rw [BitVec.getLsbD_ofNat, decide_eq_true hi, Bool.true_and]
  exact h.2 i hi

/-- Digits of a number in range satisfy them. -/
theorem honest_fromNums {t : Witness p} {xs : List (Num p)} {vs : List (Fp p)}
    (h : List.Forall₂ (Num.Live t) xs vs) (hw : w ≤ Fp.capacity p)
    (hv : (Fp.pack vs).val < 2 ^ w) : Honest t (fromNums (w := w) xs) fun _ _ => True :=
  Honest.map ((LinNum.honest_toBits (live_digitSum h) hw hv).within.mono fun _ _ _ _ => trivial)

theorem tidy_fromNums (xs : List (Num p)) (hw : w ≤ Fp.capacity p) :
    Tidy (fromNums (w := w) xs) fun _ => True :=
  ((LinNum.tidy_toBits _ hw).within.mono fun _ _ => trivial).tidy (by decide) |>.map

/-- A recomposition of digits is decided by its rows. -/
theorem decides_fromNums (hp : p.Prime) (hw : w ≤ Fp.capacity p) {s : System p}
    {xs : List Variable} (hxs : ∀ x ∈ xs, s.Allocated x) {z : Variable → Fp p}
    (one : z .one = 1) :
    Decides s z (fromNums (w := w) (xs.map (⟨·, none⟩)))
      (fromNums (w := w) (xs.map fun x => ⟨x, some (z x)⟩)) ((Fp.pack (xs.map z)).val < 2 ^ w)
      (fun z' r => r.Is z' (BitVec.ofNat w (Fp.pack (xs.map z)).val)) (Alike .compiling) where
  forces z' hz' := by
    have hmap : (xs.map fun x => (⟨x, none⟩ : Num p)).map (fun x => z' x.var) = xs.map z := by
      rw [List.map_map]
      exact List.map_congr_left fun x hx => hz' x (hxs x hx)
    rw [← hmap]
    exact forces_fromNums hp (hz'.one one) _
  honest u hu hz hP := by
    refine honest_fromNums ?_ hw hP
    rw [List.forall₂_map_left_iff, List.forall₂_map_right_iff, List.forall₂_same]
    exact fun x hx => hu.live hz (hxs x hx)
  shape := by
    refine follows_fromNums ?_
    rw [List.forall₂_map_left_iff, List.forall₂_map_right_iff, List.forall₂_same]
    exact fun x _ => Num.alike_unknown x _
  self := by
    refine (follows_fromNums ?_).mono fun _ _ _ => trivial
    exact List.forall₂_same.mpr fun x _ => Num.alike_refl _ x

/-- Digits that write a number below the modulus are the bits of the result,
    and the rows can be solved exactly where no digit past the width is one.
    That is so for every list no longer than the capacity.  In general the rows
    ask of the number's remainder that it fits the width, and its digits are
    the bits; a number that is no remainder itself has a one past the width. -/
theorem fromNums_exact (hp : p.Prime) (hw : w ≤ Fp.capacity p) {s : System p}
    {xs : List Variable} (hxs : ∀ x ∈ xs, s.Allocated x) :
    ∃ (r : Bits w) (s' : System p),
      fromNums (xs.map (⟨·, none⟩)) .compiling s = .ok r s' ∧
      ∀ z : Variable → Fp p, z .one = 1 →
        ∀ bs, List.Forall₂ (fun x b => z x = Fp.ofBool b) xs bs →
          (s'.SolvableSince s z ↔ natOfBits bs % p < 2 ^ w) ∧
          (∀ z', s.Agrees z z' → s'.HoldsSince s z' →
            ∀ i (hi : i < w), r.bits[i].Is z' ((natOfBits bs % p).testBit i)) ∧
          (natOfBits bs < p →
            (s'.SolvableSince s z ↔ ∀ i, w ≤ i → bs.getD i false = false) ∧
            ∀ z', s.Agrees z z' → s'.HoldsSince s z' →
              ∀ i (hi : i < w), r.bits[i].Is z' (bs.getD i false)) ∧
          (xs.length ≤ Fp.capacity p → natOfBits bs < p) ∧
          (p ≤ natOfBits bs → ∃ i, w ≤ i ∧ bs.getD i false = true) := by
  obtain ⟨r, s', _, hrun, _⟩ := tidy_fromNums (xs.map (⟨·, none⟩)) hw s
  refine ⟨r, s', hrun, fun z one bs hbs => ?_⟩
  have hdecides := decides_fromNums hp hw hxs one
  have hpack : (Fp.pack (xs.map z)).val = natOfBits bs % p := by
    rw [Fp.pack_of_digits (List.forall₂_map_left_iff.mpr hbs), Fp.val_natCast]
  have hwp : 2 ^ w ≤ p := Fp.two_pow_le_of_le_capacity hw
  have hsolvable := hdecides.solvableSince_iff hrun one
  have hforced : ∀ z', s.Agrees z z' → s'.HoldsSince s z' →
      ∀ i (hi : i < w), r.bits[i].Is z' ((natOfBits bs % p).testBit i) := by
    intro z' hz' hrows i hi
    have hbit := hdecides.forced hrun hz' hrows i hi
    rw [BitVec.getLsbD_ofNat, decide_eq_true hi, Bool.true_and, hpack] at hbit
    exact hbit
  rw [hpack] at hsolvable
  refine ⟨hsolvable, hforced, fun hlt => ⟨?_, fun z' hz' hrows i hi => ?_⟩, fun hlength => ?_,
    fun hle => ?_⟩
  · rw [hsolvable, Nat.mod_eq_of_lt hlt]
    constructor
    · intro hfits i hi
      rw [← testBit_natOfBits]
      exact Nat.testBit_lt_two_pow (hfits.trans_le (Nat.pow_le_pow_right Nat.two_pos hi))
    · intro hzeros
      refine Nat.lt_pow_two_of_testBit _ fun i hi => ?_
      rw [testBit_natOfBits]
      exact hzeros i hi
  · rw [← testBit_natOfBits, ← Nat.mod_eq_of_lt hlt]
    exact hforced z' hz' hrows i hi
  · rw [hbs.length_eq] at hlength
    exact (natOfBits_lt bs).trans_le (Fp.two_pow_le_of_le_capacity hlength)
  · obtain ⟨i, hi, htop⟩ := Nat.exists_ge_and_testBit_of_ge_two_pow (hwp.trans hle)
    exact ⟨i, hi, (testBit_natOfBits bs i).symm.trans htop⟩

/-- Three digits and a width of two: the third has to be zero. -/
theorem fromNums_exact_threeDigits : ∃ (r : Bits 2) (s' : System Moduli.bn256),
    fromNums ([.aux 0, .aux 1, .aux 2].map (⟨·, none⟩)) .compiling (.ofCount 3) = .ok r s' ∧
      s'.SolvableSince (.ofCount 3) (Variable.assign [0, 1, 0]) ∧
      ¬ s'.SolvableSince (.ofCount 3) (Variable.assign [0, 1, 1]) := by
  have hcap : 2 ≤ Fp.capacity Moduli.bn256 := Fp.le_capacity_of_two_pow_le (by decide)
  have hxs : ∀ x ∈ [.aux 0, .aux 1, .aux 2],
      (System.ofCount 3 : System Moduli.bn256).Allocated x := by decide
  obtain ⟨r, s', hrun, hexact⟩ := fromNums_exact Moduli.bn256_prime hcap hxs
  have hbits : ∀ b : Bool, List.Forall₂
      (fun x c => (Variable.assign [0, 1, b.toNat] x : Fp Moduli.bn256) = Fp.ofBool c)
      [.aux 0, .aux 1, .aux 2] [false, true, b] :=
    fun b => .cons rfl (.cons rfl (.cons (Fp.ofBool_eq_cast b).symm .nil))
  refine ⟨r, s', hrun, ?_, ?_⟩
  · exact (hexact _ rfl _ (hbits false)).1.mpr (by decide)
  · exact (hexact _ rfl _ (hbits true)).1.not.mpr (by decide)

/-- The assignment that gives the variables the digits of the modulus. -/
def modulusDigits : Variable → Fp Moduli.bn256
  | .input _ => 1
  | .aux i => Fp.ofBool (Moduli.bn256.testBit i)

/-- The modulus is put together to zero.  So its digits pass for those of an
    integer of eight bits, although the last of them is one, and the result is
    zero, although the first digit is one. -/
theorem fromNums_wraps : ∃ (r : Bits 8) (s' : System Moduli.bn256),
    fromNums (((List.range 254).map .aux).map (⟨·, none⟩)) .compiling (.ofCount 254) = .ok r s' ∧
      s'.SolvableSince (.ofCount 254) modulusDigits ∧ modulusDigits (.aux 253) = 1 ∧
      (∀ z', (System.ofCount 254).Agrees modulusDigits z' → s'.HoldsSince (.ofCount 254) z' →
        r.Is z' 0) ∧ modulusDigits (.aux 0) = 1 := by
  have hcap : 8 ≤ Fp.capacity Moduli.bn256 := Fp.le_capacity_of_two_pow_le (by decide)
  have hxs : ∀ x ∈ (List.range 254).map Variable.aux,
      (System.ofCount 254 : System Moduli.bn256).Allocated x := by
    intro x hx
    obtain ⟨i, hi, rfl⟩ := List.mem_map.mp hx
    exact List.mem_range.mp hi
  obtain ⟨r, s', _, hrun, _⟩ := tidy_fromNums (w := 8)
    (((List.range 254).map .aux).map (⟨·, none⟩)) hcap (.ofCount 254)
  have hdecides := decides_fromNums Moduli.bn256_prime hcap hxs (z := modulusDigits) rfl
  have hpack : (Fp.pack (((List.range 254).map .aux).map modulusDigits)).val = 0 := by
    have hdigits : List.Forall₂ (fun v b => v = Fp.ofBool b)
        (((List.range 254).map .aux).map modulusDigits)
        ((List.range 254).map Moduli.bn256.testBit) := by
      rw [List.forall₂_map_left_iff, List.forall₂_map_left_iff, List.forall₂_map_right_iff,
        List.forall₂_same]
      exact fun _ _ => rfl
    rw [Fp.pack_of_digits hdigits, natOfBits_testBit]
    decide
  refine ⟨r, s', hrun, ?_, by decide, fun z' hz' hrows => ?_, by decide⟩
  · exact (hdecides.solvableSince_iff hrun rfl).mpr (by rw [hpack]; decide)
  · have hbits := hdecides.forced hrun hz' hrows
    rwa [hpack] at hbits

/-! ## Round trips -/

section RoundTrips

variable (path path' : List String) {s : System p} {z : Variable → Fp p}

end RoundTrips

end Bits

end RankOne
