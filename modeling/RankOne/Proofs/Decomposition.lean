import RankOne.Comparator
import RankOne.Proofs.Folding

/-!
# Decomposition — digits of numbers and the comparisons built on them

    A vector of bits spells a natural number when each of its bits is the
    number's digit there.  Digits that are forced to be zero or one always
    spell some number below `2 ^ n`; as long as `2 ^ n` is at most the modulus
    the recomposing row then leaves only one, the value of the operand.

    The comparisons read an order of natural numbers off the digits of a
    difference modulo `p`, and are right where the difference cannot wrap.
-/

namespace RankOne

open Build

variable {p : Nat} [Modulus p]

/-- The combination has a value, and is worth it. -/
def LinNum.Live (w : Witness p) (x : LinNum p) (v : Fp p) : Prop :=
  x.value = some v ∧ w.Knows x.comb v

/-- The same combination, with the same value where the follower computes
    values. -/
structure LinNum.Alike (m : Mode) (x y : LinNum p) : Prop where
  comb : x.comb = y.comb
  solved : m.solves = true → x.value = y.value

namespace Bit

/-- Each bit is the digit of the number at its place. -/
def Spells (z : Variable → Fp p) {n : Nat} (bits : Vector Bit n) (v : Nat) : Prop :=
  ∀ i (hi : i < n), bits[i].Is z (v.testBit i)

/-- Each bit has the value of the number's digit at its place, and is worth
    it. -/
def Display (w : Witness p) {n : Nat} (bits : Vector Bit n) (v : Nat) : Prop :=
  ∀ i (hi : i < n), bits[i].Live w (v.testBit i)

/-- Digits that were computed stay computed. -/
theorem Display.mono {w w' : Witness p} {n : Nat} {bits : Vector Bit n} {v : Nat} (h : w ≤ w')
    (hb : Display w bits v) : Display w' bits v :=
  fun i hi => (hb i hi).mono h

/-- What is on display is spelt in every assignment that fits. -/
theorem Display.spells {w : Witness p} {n : Nat} {bits : Vector Bit n} {v : Nat}
    (hb : Display w bits v) {z : Variable → Fp p} (hz : w.Fits z) : Spells z bits v :=
  fun i hi => (hb i hi).2 z hz

/-! ## Weighted sums -/

/-- Doubling weights make a number of what the bits are worth. -/
theorem eval_weighted (z : Variable → Fp p) (c : Fp p) (bits : List Bit) :
    (weighted c bits).eval z = c * bits.foldr (fun b sum => b.val z + 2 * sum) 0 := by
  rw [weighted, LinComb.eval_addDoubling z lc (val z) (eval_lc z), LinComb.eval_zero, zero_add]

/-- Bits that are truth values weigh as much as the number that they write. -/
theorem eval_weighted_of_is {z : Variable → Fp p} {bits : List Bit} {vs : List Bool}
    (h : List.Forall₂ (fun b v => b.Is z v) bits vs) (c : Fp p) :
    (weighted c bits).eval z = c * (natOfBits vs : Fp p) := by
  rw [eval_weighted, LinComb.foldr_digits h]

/-- Bits that have the digits of a number have them in order. -/
theorem forall₂_digits {R : Bit → Bool → Prop} {n : Nat} {bits : Vector Bit n} {v : Nat}
    (h : ∀ i (hi : i < n), R bits[i] (v.testBit i)) :
    List.Forall₂ R bits.toList ((List.range n).map v.testBit) := by
  rw [List.forall₂_iff_get]
  refine ⟨by simp, fun i hi hi' => ?_⟩
  rw [Vector.length_toList] at hi
  simpa using h i hi

/-- Bits that spell a number are worth it together. -/
theorem Spells.eval_weighted {z : Variable → Fp p} {n : Nat} {bits : Vector Bit n} {v : Nat}
    (h : Spells z bits v) (hv : v < 2 ^ n) (c : Fp p) :
    (weighted c bits.toList).eval z = c * (v : Fp p) := by
  rw [eval_weighted_of_is (forall₂_digits h), natOfBits_testBit, Nat.mod_eq_of_lt hv]

/-- Bits that are truth values spell a number. -/
theorem exists_spells {z : Variable → Fp p} {n : Nat} {bits : Vector Bit n}
    (h : ∀ i (hi : i < n), ∃ v, bits[i].Is z v) : ∃ v < 2 ^ n, Spells z bits v := by
  choose f hf using h
  let vs := List.ofFn fun i : Fin n => f i i.isLt
  have hlength : vs.length = n := List.length_ofFn
  refine ⟨natOfBits vs, ?_, fun i hi => ?_⟩
  · have hlt := natOfBits_lt vs
    rw [hlength] at hlt
    exact hlt
  · have hget : vs.getD i false = f i hi := by simp [vs, hi]
    rw [testBit_natOfBits, hget]
    exact hf i hi

omit [Modulus p] in
/-- The values of bits that are all known. -/
theorem values_of_known {bits : List Bit} {vs : List Bool}
    (h : List.Forall₂ (fun b v => b.value = some v) bits vs) : bits.mapM value = some vs := by
  induction h with
  | nil => rfl
  | cons hb _ ih =>
      rw [List.mapM_cons, hb, ih]
      rfl

theorem values_alike {m : Mode} {bits bits' : List Bit} (h : List.Forall₂ (Alike m) bits bits')
    (hm : m.solves = true) : bits.mapM value = bits'.mapM value := by
  induction h with
  | nil => rfl
  | cons hb _ ih => rw [List.mapM_cons, List.mapM_cons, hb.solved hm, ih]

omit [Modulus p] in
/-- The number is computed where all digits have values. -/
theorem natValue_of_values {bits : List Bit} {vs : List Bool}
    (h : List.Forall₂ (fun b v => b.value = some v) bits vs) :
    natValue bits = some (natOfBits vs) := by
  rw [natValue, values_of_known h]
  rfl

theorem natValue_of_live {w : Witness p} {bits : List Bit} {vs : List Bool}
    (h : List.Forall₂ (fun b v => b.Live w v) bits vs) :
    natValue bits = some (natOfBits vs) :=
  natValue_of_values (h.imp fun _ _ => And.left)

/-- The follower computes the leader's number. -/
theorem natValue_alike {m : Mode} {bits bits' : List Bit}
    (h : List.Forall₂ (Alike m) bits bits') (hm : m.solves = true) :
    natValue bits = natValue bits' := by
  rw [natValue, natValue, values_alike h hm]

/-- Bits alike have one weighted sum. -/
theorem weighted_alike {m : Mode} {bits bits' : List Bit} (h : List.Forall₂ (Alike m) bits bits')
    (c : Fp p) : weighted c bits = weighted c bits' := by
  unfold weighted
  generalize (0 : LinComb p) = acc
  induction h generalizing acc c with
  | nil => rfl
  | cons hb _ ih =>
      rw [LinComb.addDoubling, LinComb.addDoubling, hb.lc, ih]

end Bit

/-! ## Splitting and packing -/

/-- A number that was split was given no more digits than the field has room
    for. -/
theorem LinNum.gives_toBits (x : LinNum p) (n : Nat) :
    Gives (x.toBits n) fun _ => n ≤ Fp.capacity p := by
  refine Gives.ite (fun _ => Gives.throw _ _) fun hcap => ?_
  refine (Gives.any _).bind fun _ _ => (Gives.any _).bind fun _ _ => Gives.pure ?_
  exact not_lt.mp hcap

section Forces

variable {z : Variable → Fp p} (hp : p.Prime) (one : z .one = 1)

include hp one

/-- Every digit is zero or one. -/
theorem BitVar.forces_allocDigits (value : Option (Fp p)) (n : Nat) :
    Forces z (allocDigits value n) fun digits =>
      ∀ i (hi : i < n), ∃ v, (Bit.pos digits[i]).Is z v :=
  Forces.tabulate fun _ => (forces_alloc hp one _).within

/-- A split operand is below `2 ^ n`, and the bits are its digits. -/
theorem LinNum.forces_toBits (x : LinNum p) (n : Nat) :
    Forces z (x.toBits n) fun bits =>
      (x.comb.eval z).val < 2 ^ n ∧ Bit.Spells z bits (x.comb.eval z).val := by
  refine Forces.ite (fun _ => Forces.throw _ _) fun hcap => ?_
  refine (BitVar.forces_allocDigits hp one _ n).row fun digits hdigits hrow => ?_
  have hbits : ∀ i (hi : i < n), ∃ v, ((digits.map Bit.pos)[i]).Is z v := by
    intro i hi
    rw [Vector.getElem_map]
    exact hdigits i hi
  obtain ⟨v, hv, hspells⟩ := Bit.exists_spells hbits
  rw [hspells.eval_weighted hv, LinComb.eval_one, one, one_mul, mul_one] at hrow
  -- no two numbers of so few digits are the same element
  have hval : (x.comb.eval z).val = v :=
    Fp.val_eq_of_eq_cast hrow.symm (hv.trans_le (Fp.two_pow_le_of_le_capacity (not_lt.mp hcap)))
  rw [hval]
  exact ⟨hv, hspells⟩

/-- A number is split as the combination that it is. -/
theorem Num.forces_toBits (x : Num p) (n : Nat) :
    Forces z (x.toBits n) fun bits => (z x.var).val < 2 ^ n ∧ Bit.Spells z bits (z x.var).val := by
  refine (x.toLinNum.forces_toBits hp one n).mono fun bits h => ?_
  rw [← Num.eval_lc z x]
  exact h

/-- A range check is a split whose digits are thrown away. -/
theorem Num.forces_rangeCheck (x : Num p) (n : Nat) :
    Forces z (x.rangeCheck n) fun _ => (z x.var).val < 2 ^ n :=
  (x.forces_toBits hp one n).bind fun _ => Forces.pure And.left

omit hp in
/-- The row of a recomposition makes the number worth its digits. -/
theorem Num.forces_ofBits (bits : List Bit) :
    Forces z (Num.ofBits (p := p) bits) fun x =>
      ∀ vs, List.Forall₂ (Bit.Is z) bits vs → z x.var = (natOfBits vs : Fp p) := by
  refine (Forces.aux _ _).within.row fun x _ hrow vs h => ?_
  rw [Bit.eval_weighted_of_is h, LinComb.eval_one, one, one_mul, mul_one, Num.eval_lc] at hrow
  exact hrow.symm

end Forces

section Honest

variable {w : Witness p}

theorem LinNum.Live.mono {w' : Witness p} {x : LinNum p} {v : Fp p} (h : w ≤ w')
    (hx : x.Live w v) : x.Live w' v :=
  ⟨hx.1, hx.2.mono h⟩

theorem LinNum.live_const (c : Fp p) : (const c).Live w c := by
  refine ⟨rfl, fun z hz => ?_⟩
  rw [const, LinComb.eval_const, hz.one, mul_one]

theorem Num.Live.toLinNum {x : Num p} {v : Fp p} (hx : x.Live w v) : x.toLinNum.Live w v := hx

/-- The digits of a value satisfy the rows that make them bits. -/
theorem BitVar.honest_allocDigits (v : Fp p) (n : Nat) :
    Honest w (allocDigits (some v) n) fun w' digits =>
      Bit.Display w' (digits.map Bit.pos) v.val := by
  have h : Honest w (allocDigits (some v) n) fun w' digits =>
      ∀ i (hi : i < n), (digits[i]).Live w' (v.val.testBit i) :=
    Honest.tabulate (Q := fun i w' x => BitVar.Live w' x (v.val.testBit i))
      (fun _ _ _ _ hle hx => hx.mono hle) fun i w' _ => (honest_alloc (v.val.testBit i)).within
  refine h.mono fun w' digits _ hdigits i hi => ?_
  rw [Vector.getElem_map]
  exact Bit.live_pos.mpr (hdigits i hi)

/-- The digits of a value that is in range add up to it. -/
theorem LinNum.honest_toBits {x : LinNum p} {v : Fp p} {n : Nat} (hx : x.Live w v)
    (hn : n ≤ Fp.capacity p) (hv : v.val < 2 ^ n) :
    Honest w (x.toBits n) fun w' bits => Bit.Display w' bits v.val := by
  refine Honest.ite (fun h => absurd h (not_lt.mpr hn)) fun _ => ?_
  rw [hx.1]
  refine (BitVar.honest_allocDigits v n).row ?_ ?_
  · intro w' digits z hle hdigits hz
    rw [(hdigits.spells hz).eval_weighted hv, LinComb.eval_one, hz.one,
      hx.2 z (hz.mono hle), one_mul, mul_one]
    exact Fp.cast_val v
  · intro w' w'' digits hle hdigits
    exact hdigits.mono hle

theorem Num.honest_toBits {x : Num p} {v : Fp p} {n : Nat} (hx : x.Live w v)
    (hn : n ≤ Fp.capacity p) (hv : v.val < 2 ^ n) :
    Honest w (x.toBits n) fun w' bits => Bit.Display w' bits v.val :=
  LinNum.honest_toBits hx.toLinNum hn hv

/-- A value in range passes a range check. -/
theorem Num.honest_rangeCheck {x : Num p} {v : Fp p} {n : Nat} (hx : x.Live w v)
    (hn : n ≤ Fp.capacity p) (hv : v.val < 2 ^ n) :
    Honest w (x.rangeCheck n) fun _ _ => True :=
  (Num.honest_toBits hx hn hv).bind fun _ _ _ _ => Honest.pure fun _ _ => trivial

/-- The number that is computed satisfies the row of the recomposition. -/
theorem Num.honest_ofBits {bits : List Bit} {vs : List Bool}
    (h : List.Forall₂ (fun b v => b.Live w v) bits vs) :
    Honest w (Num.ofBits (p := p) bits) fun w' x => x.Live w' (natOfBits vs : Fp p) := by
  rw [Num.ofBits, Bit.natValue_of_live h]
  refine (honest_alloc (natOfBits vs : Fp p)).within.row ?_ ?_
  · intro w' x z hle hx hz
    have hbits : List.Forall₂ (Bit.Is z) bits vs := h.imp fun b v hb => hb.2 z (hz.mono hle)
    rw [Bit.eval_weighted_of_is hbits, LinComb.eval_one, hz.one, one_mul, mul_one, Num.eval_lc,
      hx.eval hz]
  · intro w' w'' x hle hx
    exact hx.mono hle

end Honest

section Follows

variable {m m' : Mode} [Mode.AsksLess m m']

omit [Modulus p] in
theorem Bit.forall₂_alike {n : Nat} {bits bits' : Vector Bit n}
    (h : ∀ i (hi : i < n), bits[i].Alike m bits'[i]) :
    List.Forall₂ (Bit.Alike m) bits.toList bits'.toList := by
  rw [List.forall₂_iff_get]
  refine ⟨by simp, fun i hi _ => ?_⟩
  rw [Vector.length_toList] at hi
  simpa using h i hi

theorem BitVar.follows_allocDigits {v v' : Option (Fp p)} (h : m.solves = true → v = v')
    (n : Nat) : Follows m m' (allocDigits v n) (allocDigits v' n) fun digits digits' =>
      ∀ i (hi : i < n), digits[i].Alike m digits'[i] := by
  refine Follows.tabulate fun i => (follows_alloc fun hm => ?_).within
  rw [h hm]

/-- The number of digits is refused in both runs or in none. -/
theorem LinNum.follows_toBits {x x' : LinNum p} (hx : x.Alike m x') (n : Nat) :
    Follows m m' (x.toBits n) (x'.toBits n) fun bits bits' =>
      ∀ i (hi : i < n), bits[i].Alike m bits'[i] := by
  refine Follows.ite (fun _ => Follows.throw) fun _ => ?_
  have hbits : ∀ digits digits' : Vector BitVar n,
      (∀ i (hi : i < n), digits[i].Alike m digits'[i]) →
      ∀ i (hi : i < n), (digits.map Bit.pos)[i].Alike m (digits'.map Bit.pos)[i] := by
    intro digits digits' h i hi
    rw [Vector.getElem_map, Vector.getElem_map]
    exact .pos (h i hi)
  refine (BitVar.follows_allocDigits hx.solved n).row ?_ (fun _ _ _ => rfl)
    (fun _ _ _ => hx.comb) hbits
  intro digits digits' h
  exact Bit.weighted_alike (Bit.forall₂_alike (hbits digits digits' h)) 1

theorem Num.Alike.toLinNum {x x' : Num p} (hx : x.Alike m x') : x.toLinNum.Alike m x'.toLinNum :=
  ⟨hx.lc, hx.solved⟩

theorem Num.follows_toBits {x x' : Num p} (hx : x.Alike m x') (n : Nat) :
    Follows m m' (x.toBits n) (x'.toBits n) fun bits bits' =>
      ∀ i (hi : i < n), bits[i].Alike m bits'[i] :=
  LinNum.follows_toBits hx.toLinNum n

theorem Num.follows_rangeCheck {x x' : Num p} (hx : x.Alike m x') (n : Nat) :
    Follows m m' (x.rangeCheck n) (x'.rangeCheck n) fun _ _ => True :=
  (Num.follows_toBits hx n).bind fun _ _ _ => Follows.pure trivial

/-- Recompositions of bits alike run alike. -/
theorem Num.follows_ofBits {bits bits' : List Bit} (h : List.Forall₂ (Bit.Alike m) bits bits') :
    Follows m m' (Num.ofBits (p := p) bits) (Num.ofBits bits') (Num.Alike m) := by
  refine (follows_alloc fun hm => ?_).within.row (fun _ _ _ => Bit.weighted_alike h 1)
    (fun _ _ _ => rfl) ?_ fun _ _ hx => hx
  · rw [Bit.natValue_alike h hm]
  · intro x x' hx
    exact hx.lc

end Follows

section Compiling

/-- The names of digits are told apart by their numbers. -/
theorem BitVar.compiles_allocDigits (value : Option (Fp p)) (n : Nat) :
    Compiles ((List.range n).map fun i => s!"bit {i}") (allocDigits value n) fun _ => True :=
  (Compiles.tabulate fun _ => (tidy_alloc _).within).mono fun _ _ => trivial

/-- No more digits than the capacity can always be asked for; each is a fresh
    variable. -/
theorem LinNum.tidy_toBits (x : LinNum p) {n : Nat} (hn : n ≤ Fp.capacity p) :
    Tidy (x.toBits n) fun bits => ∀ i (hi : i < n), ∃ b, bits[i] = .pos b := by
  let digits := (List.range n).map (Naming.Label.counted "bit " (by decide))
  let row := Naming.Label.plain "recompose" (by decide)
  refine Compiles.tidy (N := (digits ++ [row]).map Naming.Label.name) ?_ ?_
  · have hcap : ¬Fp.capacity p < n := not_lt.mpr hn
    rw [toBits, if_neg hcap, List.map_append, List.map_map]
    refine (BitVar.compiles_allocDigits _ n).row fun digits _ i hi => ?_
    exact ⟨digits[i], Vector.getElem_map _ _⟩
  · refine Naming.distinct_of_labels (Naming.nodup_append_labels ?_ ?_ ?_)
    · exact Naming.nodup_counted _ _ List.nodup_range
    · exact List.nodup_singleton _
    · intro l hl l' hl'
      obtain ⟨i, _, rfl⟩ := List.mem_map.mp hl
      obtain rfl := List.mem_singleton.mp hl'
      show "bit " ≠ "recompose"
      decide

theorem Num.tidy_toBits (x : Num p) {n : Nat} (hn : n ≤ Fp.capacity p) :
    Tidy (x.toBits n) fun _ => True :=
  (x.toLinNum.tidy_toBits hn).mono fun _ _ => trivial

theorem Num.tidy_rangeCheck (x : Num p) {n : Nat} (hn : n ≤ Fp.capacity p) :
    Tidy (x.rangeCheck n) fun _ => True :=
  (x.tidy_toBits hn).map

/-- A recomposition names its number and its row. -/
theorem Num.tidy_ofBits (bits : List Bit) :
    Tidy (Num.ofBits (p := p) bits) fun x => x.value = none := by
  have hnames : Compiles ["num", "pack"] (Num.ofBits (p := p) bits) fun x => x.value = none :=
    (tidy_alloc _).within.row fun _ hx => hx
  exact hnames.tidy (by decide)

end Compiling

/-! ## Comparison

    The two assertions are one circuit with two offsets.  A difference that
    came out negative has a decomposition only where the modulus leaves no
    digit to spare; with `2 ^ (n + 1)` at most the modulus it is too large.
-/

namespace Num

@[simp] theorem eval_gap (z : Variable → Fp p) (a b : Num p) (offset : Fp p) (one : z .one = 1) :
    (gap a b offset).comb.eval z = z b.var - z a.var - offset := by
  simp [gap, one]

/-- The difference of two values is computed with its combination. -/
theorem Live.gap {w : Witness p} {a b : Num p} {u v : Fp p} (ha : a.Live w u) (hb : b.Live w v)
    (offset : Fp p) : (gap a b offset).Live w (v - u - offset) := by
  refine ⟨?_, fun z hz => ?_⟩
  · rw [Num.gap, ha.1, hb.1]
    rfl
  · rw [eval_gap z a b offset hz.one, ha.eval hz, hb.eval hz]

theorem Alike.gap {m : Mode} {a a' b b' : Num p} (ha : a.Alike m a') (hb : b.Alike m b')
    (offset : Fp p) : (gap a b offset).Alike m (gap a' b' offset) := by
  refine ⟨?_, fun hm => ?_⟩
  · rw [Num.gap, Num.gap, ha.lc, hb.lc]
  · rw [Num.gap, Num.gap, ha.solved hm, hb.solved hm]

end Num

namespace Fp

/-- A difference that stays positive is that of the numbers. -/
theorem val_gap_of_le {a b : Fp p} {k : Nat} (h : a.val + k ≤ b.val) :
    (b - a - (k : Fp p)).val = b.val - (a.val + k) := by
  have hcast : b - a - (k : Fp p) = ((b.val - (a.val + k) : Nat) : Fp p) := by
    rw [Nat.cast_sub h, Nat.cast_add, cast_val, cast_val]
    ring
  exact val_eq_of_eq_cast hcast (by have := b.isLt; omega)

/-- A difference that comes out negative wraps around. -/
theorem val_gap_of_lt {a b : Fp p} {k : Nat} (h : b.val < a.val + k)
    (hk : a.val + k ≤ p + b.val) :
    (b - a - (k : Fp p)).val = p + b.val - (a.val + k) := by
  have hcast : b - a - (k : Fp p) = ((p + b.val - (a.val + k) : Nat) : Fp p) := by
    have hzero : ((p : Nat) : Fp p) = 0 := ext_val (Nat.mod_self p)
    rw [Nat.cast_sub hk, Nat.cast_add, Nat.cast_add, cast_val, cast_val, hzero]
    ring
  exact val_eq_of_eq_cast hcast (by omega)

/-- Both elements are below `2 ^ n`, and so is what is left of the second one
    without the first one and `k`. -/
def Gap (n k : Nat) (a b : Fp p) : Prop :=
  a.val < 2 ^ n ∧ b.val < 2 ^ n ∧ (b - a - (k : Fp p)).val < 2 ^ n

instance (n k : Nat) (a b : Fp p) : Decidable (Gap n k a b) :=
  inferInstanceAs (Decidable (_ ∧ _))

/-- A gap is one of numbers, or it wrapped around a modulus that is no larger
    than what was left of it. -/
theorem gap_iff {n k : Nat} (hk : k ≤ 1) (a b : Fp p) :
    Gap n k a b ↔ a.val < 2 ^ n ∧ b.val < 2 ^ n ∧
      (a.val + k ≤ b.val ∨ p + b.val < 2 ^ n + (a.val + k)) := by
  refine and_congr_right fun _ => and_congr_right fun hb => ?_
  by_cases hle : a.val + k ≤ b.val
  · rw [val_gap_of_le hle]
    omega
  · rw [val_gap_of_lt (not_le.mp hle) (by have := a.isLt; omega)]
    omega

/-- With a digit to spare below the modulus no gap wraps around. -/
theorem gap_iff_of_two_pow_le {n k : Nat} (hk : k ≤ 1) (hn : 2 ^ (n + 1) ≤ p) (a b : Fp p) :
    Gap n k a b ↔ a.val < 2 ^ n ∧ b.val < 2 ^ n ∧ a.val + k ≤ b.val := by
  rw [Nat.pow_succ] at hn
  rw [gap_iff hk]
  refine and_congr_right fun ha => and_congr_right fun hb => ?_
  omega

end Fp

namespace Num

/-- Enforces that both numbers are below `2 ^ n`, and that `b - a - k` is. -/
def assertGap (name : String) (k : Nat) (a b : Num p) (n : Nat) : Build p SynthesisError Unit := do
  Build.within "a range" <| a.rangeCheck n
  Build.within "b range" <| b.rangeCheck n
  let _ ← Build.within name <| (gap a b (k : Fp p)).toBits n

/-- The strict comparison is the one with an offset of one. -/
theorem assertLess_eq (a b : Num p) (n : Nat) :
    assertLess a b n = assertGap "b - a - 1" 1 a b n := rfl

/-- The other one has no offset. -/
theorem assertLessOrEqual_eq (a b : Num p) (n : Nat) :
    assertLessOrEqual a b n = assertGap "b - a" 0 a b n := rfl

variable (name : String) (k n : Nat)

/-- That the comparison returns says that the field has room for the digits. -/
theorem gives_assertGap (a b : Num p) :
    Gives (assertGap name k a b n) fun _ => n ≤ Fp.capacity p := by
  refine (Gives.any _).bind fun _ _ => (Gives.any _).bind fun _ _ => ?_
  exact (LinNum.gives_toBits _ n).within.bind fun _ hn => Gives.pure hn

/-- The rows force both operands and their difference into range. -/
theorem forces_assertGap {z : Variable → Fp p} (hp : p.Prime) (one : z .one = 1) (a b : Num p) :
    Forces z (assertGap name k a b n) fun _ => Fp.Gap n k (z a.var) (z b.var) := by
  refine (forces_rangeCheck hp one a n).within.bind fun _ => ?_
  refine (forces_rangeCheck hp one b n).within.bind fun _ => ?_
  refine (LinNum.forces_toBits hp one _ n).within.bind fun _ => Forces.pure ?_
  intro hgap hb ha
  rw [eval_gap z a b k one] at hgap
  exact ⟨ha, hb, hgap.1⟩

/-- Operands in range, with their difference in range, satisfy the rows. -/
theorem honest_assertGap {w : Witness p} {a b : Num p} {u v : Fp p} (ha : a.Live w u)
    (hb : b.Live w v) (hn : n ≤ Fp.capacity p) (h : Fp.Gap n k u v) :
    Honest w (assertGap name k a b n) fun _ _ => True := by
  obtain ⟨hu, hv, hgap⟩ := h
  refine (honest_rangeCheck ha hn hu).within.bind fun w₁ _ hle₁ _ => ?_
  refine (honest_rangeCheck (hb.mono hle₁) hn hv).within.bind fun w₂ _ hle₂ _ => ?_
  have hle := hle₁.trans hle₂
  have hlive := (ha.mono hle).gap (hb.mono hle) (k : Fp p)
  refine (LinNum.honest_toBits hlive hn hgap).within.bind fun _ _ _ _ => ?_
  exact Honest.pure fun _ _ => trivial

/-- Comparisons of numbers alike run alike. -/
theorem follows_assertGap {m m' : Mode} [Mode.AsksLess m m'] {a a' b b' : Num p}
    (ha : a.Alike m a') (hb : b.Alike m b') :
    Follows m m' (assertGap name k a b n) (assertGap name k a' b' n) fun _ _ => True := by
  refine (follows_rangeCheck ha n).within.bind fun _ _ _ => ?_
  refine (follows_rangeCheck hb n).within.bind fun _ _ _ => ?_
  exact (LinNum.follows_toBits (ha.gap hb _) n).within.bind fun _ _ _ => Follows.pure trivial

variable {name n}

/-- Three namespaces are named, one for each split. -/
theorem tidy_assertGap (hname : Naming.Distinct ["a range", "b range", name]) (a b : Num p)
    (hn : n ≤ Fp.capacity p) : Tidy (assertGap name k a b n) fun _ => True := by
  refine Compiles.tidy (N := ["a range", "b range", name]) ?_ hname
  refine (tidy_rangeCheck a hn).within.step fun _ _ => ?_
  refine (tidy_rangeCheck b hn).within.step fun _ _ => ?_
  exact (LinNum.tidy_toBits _ hn).within.step fun _ _ => Compiles.pure trivial

end Num

/-! ## Comparison of numbers that are not far apart -/

namespace Fp

/-- The second element is ahead of the first by at least one and at most
    `2 ^ bits`, going around the field. -/
def Ahead (bits : Nat) (a b : Fp p) : Prop := 1 ≤ (b - a).val ∧ (b - a).val ≤ 2 ^ bits

instance (bits : Nat) (a b : Fp p) : Decidable (Ahead bits a b) :=
  inferInstanceAs (Decidable (_ ∧ _))

private theorem cast_modulus_sub {d : Fp p} : ((p - d.val : Nat) : Fp p) = -d := by
  have hzero : ((p : Nat) : Fp p) = 0 := ext_val (Nat.mod_self p)
  rw [Nat.cast_sub d.isLt.le, cast_val, hzero, zero_sub]

/-- The difference less one has few digits exactly where the second operand is
    ahead by no more than they allow. -/
theorem gap_lt_iff_ahead {bits : Nat} (h : 2 ^ bits < p) (a b : Fp p) :
    (b - a - 1).val < 2 ^ bits ↔ Ahead bits a b := by
  rw [Ahead]
  generalize b - a = d
  rcases Nat.eq_zero_or_pos d.val with hd | hd
  -- no distance at all goes around to the largest value
  · have hval : (d - 1).val = p - 1 := by
      have hcast : d - 1 = ((p - 1 : Nat) : Fp p) := by
        have hzero : ((p : Nat) : Fp p) = 0 := ext_val (Nat.mod_self p)
        rw [Nat.cast_sub (Modulus.pos p), hzero, Nat.cast_one, ← cast_val d, hd, Nat.cast_zero]
      exact val_eq_of_eq_cast hcast (by have := Modulus.pos p; omega)
    rw [hval]
    omega
  · have hval : (d - 1).val = d.val - 1 := by
      have hcast : d - 1 = ((d.val - 1 : Nat) : Fp p) := by
        rw [Nat.cast_sub hd, cast_val, Nat.cast_one]
      exact val_eq_of_eq_cast hcast (by have := d.isLt; omega)
    rw [hval]
    omega

/-- A power of two that is added to the difference shifts the window. -/
theorem shift_lt_iff_ahead {bits : Nat} (h : 2 ^ bits < p) (a b : Fp p) :
    (pow2 bits + a - b).val < 2 ^ bits ↔ Ahead bits a b := by
  have hshift : pow2 bits + a - b = ((2 ^ bits : Nat) : Fp p) - (b - a) := by
    rw [pow2_eq_cast]
    ring
  rw [Ahead, hshift]
  generalize b - a = d
  by_cases hd : d.val ≤ 2 ^ bits
  · have hval : (((2 ^ bits : Nat) : Fp p) - d).val = 2 ^ bits - d.val := by
      refine val_eq_of_eq_cast ?_ (by omega)
      rw [Nat.cast_sub hd, cast_val]
    rw [hval]
    have := Nat.two_pow_pos bits
    omega
  -- a distance beyond the bound goes around, and stays above it
  · have hval : (((2 ^ bits : Nat) : Fp p) - d).val = 2 ^ bits + (p - d.val) := by
      refine val_eq_of_eq_cast ?_ (by omega)
      rw [Nat.cast_add, cast_modulus_sub, sub_eq_add_neg]
    rw [hval]
    omega

end Fp

/-- A number of one digit more is below the bound where its top digit is not
    set. -/
theorem lt_two_pow_iff_testBit {n v : Nat} (h : v < 2 ^ (n + 1)) :
    v < 2 ^ n ↔ v.testBit n = false := by
  constructor
  · exact Nat.testBit_lt_two_pow
  · intro htop
    refine Nat.lt_pow_two_of_testBit v fun i hi => ?_
    rcases Nat.eq_or_lt_of_le hi with rfl | hi
    · exact htop
    · exact Nat.testBit_lt_two_pow (h.trans_le (Nat.pow_le_pow_right Nat.two_pos hi))

namespace Fp

/-- The top digit of a shifted difference tells who is ahead. -/
theorem decide_ahead {bits : Nat} (h : 2 ^ bits < p) {a b : Fp p}
    (hlt : (pow2 bits + a - b).val < 2 ^ (bits + 1)) :
    decide (Ahead bits a b) = !(pow2 bits + a - b).val.testBit bits := by
  have hiff : Ahead bits a b ↔ (pow2 bits + a - b).val.testBit bits = false := by
    rw [← shift_lt_iff_ahead h, lt_two_pow_iff_testBit hlt]
  cases htop : (pow2 bits + a - b).val.testBit bits with
  | false => exact decide_eq_true (hiff.mpr htop)
  | true => exact decide_eq_false fun hahead => nomatch htop.symm.trans (hiff.mp hahead)

end Fp

namespace Comparator

variable {z : Variable → Fp p} {w : Witness p} {m m' : Mode} [Mode.AsksLess m m']

/-- The shifted difference is worth the power of two and the difference. -/
theorem eval_shifted (one : z .one = 1) (cmp : Comparator) (a b : Num p) :
    (cmp.shifted a b).comb.eval z = Fp.pow2 cmp.bits + z a.var - z b.var := by
  simp [shifted, one]

theorem live_shifted (cmp : Comparator) {a b : Num p} {u v : Fp p} (ha : a.Live w u)
    (hb : b.Live w v) : (cmp.shifted a b).Live w (Fp.pow2 cmp.bits + u - v) := by
  refine ⟨?_, fun z hz => ?_⟩
  · rw [shifted, ha.1, hb.1]
    rfl
  · rw [eval_shifted hz.one, ha.eval hz, hb.eval hz]

/-- The shifted difference has one digit more than the bound, and the result
    says whether the second number is ahead of the first. -/
theorem forces_isLess_decide (hp : p.Prime) (one : z .one = 1) (cmp : Comparator) (a b : Num p)
    (h : 2 ^ cmp.bits < p) :
    Forces z (cmp.isLess a b) fun r =>
      (Fp.pow2 cmp.bits + z a.var - z b.var).val < 2 ^ (cmp.bits + 1) ∧
        r.Is z (decide (Fp.Ahead cmp.bits (z a.var) (z b.var))) := by
  refine (LinNum.forces_toBits hp one _ _).bind fun digits => Forces.pure ?_
  rintro ⟨hlt, hspells⟩
  rw [eval_shifted one] at hlt hspells
  refine ⟨hlt, ?_⟩
  have hback : digits.back = digits[cmp.bits] := Vector.back_eq_getElem
  have htop := (hspells cmp.bits (Nat.lt_succ_self _)).not one
  rw [← Fp.decide_ahead h hlt, ← hback] at htop
  exact htop

/-- A result of one says that the second number is ahead of the first. -/
theorem forces_isLess (hp : p.Prime) (one : z .one = 1) (cmp : Comparator) (a b : Num p)
    (h : 2 ^ cmp.bits < p) :
    Forces z (cmp.isLess a b) fun r => r.Is z true → Fp.Ahead cmp.bits (z a.var) (z b.var) :=
  (cmp.forces_isLess_decide hp one a b h).mono fun _ hr htrue =>
    of_decide_eq_true (Fp.ofBool_injective hp (hr.2.symm.trans htrue))

/-- A shifted difference in range has a highest digit that says whether the
    second operand is ahead. -/
theorem honest_isLess_decide (cmp : Comparator) {a b : Num p} {u v : Fp p} (ha : a.Live w u)
    (hb : b.Live w v) (hbits : cmp.bits + 1 ≤ Fp.capacity p)
    (hlt : (Fp.pow2 cmp.bits + u - v).val < 2 ^ (cmp.bits + 1)) (hp : 2 ^ cmp.bits < p) :
    Honest w (cmp.isLess a b) fun w' r => r.Live w' (decide (Fp.Ahead cmp.bits u v)) := by
  refine (LinNum.honest_toBits (cmp.live_shifted ha hb) hbits hlt).bind fun w₁ digits _ hd => ?_
  refine Honest.pure fun w₂ hle => ?_
  have hback : digits.back = digits[cmp.bits] := Vector.back_eq_getElem
  have htop := (hd cmp.bits (Nat.lt_succ_self _)).not
  rw [← Fp.decide_ahead hp hlt, ← hback] at htop
  exact htop.mono hle

/-- Where the second operand is ahead the answer is that the first is less. -/
theorem honest_isLess (cmp : Comparator) {a b : Num p} {u v : Fp p} (ha : a.Live w u)
    (hb : b.Live w v) (hbits : cmp.bits + 1 ≤ Fp.capacity p) (h : Fp.Ahead cmp.bits u v)
    (hp : 2 ^ cmp.bits < p) : Honest w (cmp.isLess a b) fun w' r => r.Live w' true := by
  have hlt := ((Fp.shift_lt_iff_ahead hp u v).mpr h).trans
    (Nat.pow_lt_pow_right Nat.one_lt_two (Nat.lt_succ_self cmp.bits))
  have hless := cmp.honest_isLess_decide ha hb hbits hlt hp
  rwa [decide_eq_true h] at hless

/-- Comparisons of numbers alike give answers alike. -/
theorem follows_isLess (cmp : Comparator) {a a' b b' : Num p} (ha : a.Alike m a')
    (hb : b.Alike m b') : Follows m m' (cmp.isLess a b) (cmp.isLess a' b') (Bit.Alike m) := by
  have hshifted : (cmp.shifted a b).Alike m (cmp.shifted a' b') := by
    refine ⟨?_, fun hm => ?_⟩
    · rw [shifted, shifted, ha.lc, hb.lc]
    · rw [shifted, shifted, ha.solved hm, hb.solved hm]
  refine (LinNum.follows_toBits hshifted _).bind fun digits digits' h => Follows.pure ?_
  rw [Vector.back_eq_getElem, Vector.back_eq_getElem]
  exact (h _ _).not

/-- The split of the difference forces the first operand to be behind the
    second. -/
theorem forces_assertIsLess (hp : p.Prime) (one : z .one = 1) (cmp : Comparator) (a b : Num p)
    (h : 2 ^ cmp.bits < p) :
    Forces z (cmp.assertIsLess a b) fun _ => Fp.Ahead cmp.bits (z a.var) (z b.var) := by
  refine (LinNum.forces_toBits hp one _ _).bind fun digits => Forces.pure ?_
  intro hgap
  rw [Num.eval_gap z a b 1 one] at hgap
  exact (Fp.gap_lt_iff_ahead h _ _).mp hgap.1

/-- An operand that is behind the other satisfies the rows. -/
theorem honest_assertIsLess (cmp : Comparator) {a b : Num p} {u v : Fp p} (ha : a.Live w u)
    (hb : b.Live w v) (hbits : cmp.bits ≤ Fp.capacity p) (h : Fp.Ahead cmp.bits u v)
    (hp : 2 ^ cmp.bits < p) : Honest w (cmp.assertIsLess a b) fun _ _ => True := by
  have hgap := (Fp.gap_lt_iff_ahead hp u v).mpr h
  exact (LinNum.honest_toBits (ha.gap hb 1) hbits hgap).bind fun _ _ _ _ =>
    Honest.pure fun _ _ => trivial

theorem follows_assertIsLess (cmp : Comparator) {a a' b b' : Num p} (ha : a.Alike m a')
    (hb : b.Alike m b') :
    Follows m m' (cmp.assertIsLess a b) (cmp.assertIsLess a' b') fun _ _ => True :=
  (LinNum.follows_toBits (ha.gap hb 1) _).bind fun _ _ _ => Follows.pure trivial

/-- The result is the negation of a fresh variable. -/
theorem tidy_isLess (cmp : Comparator) (a b : Num p) (h : cmp.bits + 1 ≤ Fp.capacity p) :
    Tidy (cmp.isLess a b) fun r => ∃ x, r = .neg x := by
  refine ((LinNum.tidy_toBits _ h).mono fun digits hdigits => ?_).map
  have hback : digits.back = digits[cmp.bits] := Vector.back_eq_getElem
  obtain ⟨x, hx⟩ := hdigits cmp.bits (Nat.lt_succ_self _)
  rw [hback, hx]
  exact ⟨x, rfl⟩

/-- The assertion compiles wherever the field has room for the digits. -/
theorem tidy_assertIsLess (cmp : Comparator) (a b : Num p) (h : cmp.bits ≤ Fp.capacity p) :
    Tidy (cmp.assertIsLess a b) fun _ => True :=
  ((LinNum.tidy_toBits _ h).mono fun _ _ => trivial).map

end Comparator

end RankOne
