import RankOne.Division
import RankOne.Proofs.Hints
import RankOne.Proofs.Masking

/-!
# Floor division — quotient and remainder are the only choice

    The rows of a floor division are all there for every divisor, and masked
    by two bits that the divisor forces.  With the divisor zero they pin the
    quotient to zero; otherwise they bound quotient and remainder so tightly
    that the identity modulo `p` is one of natural numbers.

    `IsFloorDivision` is the relation on natural numbers that is left.  The
    rows can be satisfied exactly when it holds, and then the values of a run
    that solves satisfy them.
-/

namespace RankOne

open Build

variable {p : Nat} [Modulus p]

namespace Division

/-! ## Binding quotient and remainder -/

/-- What the rows of a floor division leave: quotient and remainder of a
    division by a divisor of 64 digits with a quotient of 160, or a zero
    quotient for a zero divisor. -/
def IsFloorDivision (dividend divisor quotient remainder : Nat) : Prop :=
  (divisor = 0 ∧ quotient = 0) ∨
    (0 < divisor ∧ divisor < 2 ^ 64 ∧ quotient < 2 ^ 160 ∧ remainder < divisor ∧
      quotient * divisor + remainder = dividend)

instance (n d q r : Nat) : Decidable (IsFloorDivision n d q r) :=
  inferInstanceAs (Decidable (_ ∨ _))

/-- By zero the quotient is zero. -/
theorem IsFloorDivision.quotient_eq_zero {n d q r : Nat} (h : IsFloorDivision n d q r)
    (hd : d = 0) : q = 0 := by
  rcases h with h | h
  · exact h.2
  · exact absurd hd h.1.ne'

/-- By any other divisor quotient and remainder are in range, and those of the
    numbers. -/
theorem IsFloorDivision.of_ne_zero {n d q r : Nat} (h : IsFloorDivision n d q r) (hd : d ≠ 0) :
    d < 2 ^ 64 ∧ q < 2 ^ 160 ∧ r < d ∧ q * d + r = n := by
  rcases h with h | h
  · exact absurd h.1 hd
  · exact h.2

/-- Bounded quotients and divisors leave no room for a sum to wrap around a
    modulus of more than 224 digits. -/
theorem mul_add_lt {d q r : Nat} (hd : d < 2 ^ 64) (hq : q < 2 ^ 160) (hr : r < d) :
    q * d + r < 2 ^ 224 := by
  calc q * d + r < q * d + d := Nat.add_lt_add_left hr _
    _ = (q + 1) * d := (Nat.succ_mul q d).symm
    _ ≤ 2 ^ 160 * 2 ^ 64 := Nat.mul_le_mul hq hd.le
    _ = 2 ^ 224 := by decide

/-- The names need room for the digits only. -/
theorem tidy_bind_of_le (hcap : quotientBits + 1 ≤ Fp.capacity p)
    (dividend divisor quotient remainder : Num p) :
    Tidy (bind dividend divisor quotient remainder) fun _ => True := by
  refine Compiles.tidy (N := ["zero", "divisor is zero", "divisor nonzero",
    "zero divisor gives zero quotient", "quotient * divisor", "product + remainder",
    "division identity", "remainder < divisor", "quotient bound", "quotient < bound"]) ?_
    (by decide)
  have h64 : divisorBits ≤ Fp.capacity p := le_trans (by decide) hcap
  refine (Num.tidy_constant _).within.step fun _ _ => (Num.tidy_isZero _).within.step fun _ _ => ?_
  refine (Num.tidy_isZero _).within.step fun _ _ => ?_
  refine (Num.tidy_assertEqualIf _ _ _).within.step fun _ _ => ?_
  refine (Num.tidy_mul _ _).within.step fun _ _ => (Num.tidy_add _ _).within.step fun _ _ => ?_
  refine (Num.tidy_assertEqualIf _ _ _).within.step fun _ _ => ?_
  refine (Num.tidy_assertGapIf (by decide) (by decide) h64 _ _ _).within.step fun _ _ => ?_
  refine (Num.tidy_constant _).within.step fun _ _ => ?_
  exact (Num.tidy_assertGapIf (by decide) (by decide) hcap _ _ _).within

section Bind

variable (hp : p.Prime) (hbig : 2 ^ 224 < p)

include hbig

/-- The bound of a quotient does not wrap around. -/
private theorem val_bound : (Fp.pow2 quotientBits : Fp p).val = 2 ^ 160 := by
  rw [Fp.pow2_eq_cast]
  exact Fp.val_cast_of_lt (lt_trans (by decide) hbig)

omit [Modulus p] in
private theorem two_pow_le {n : Nat} (hn : n ≤ 224) : 2 ^ n ≤ p :=
  (Nat.pow_le_pow_right Nat.two_pos hn).trans hbig.le

private theorem le_capacity {n : Nat} (hn : n ≤ 224) : n ≤ Fp.capacity p :=
  Fp.le_capacity_of_two_pow_le (two_pow_le hbig hn)

/-- The identity of the rows is one of natural numbers. -/
private theorem eq_mul_add {n d q r : Fp p} (hd : d.val < 2 ^ 64) (hq : q.val < 2 ^ 160)
    (hr : r.val < d.val) :
    q * d + r = n ↔ q.val * d.val + r.val = n.val := by
  have hcast : ((q.val * d.val + r.val : Nat) : Fp p) = q * d + r := by
    rw [Nat.cast_add, Nat.cast_mul, Fp.cast_val, Fp.cast_val, Fp.cast_val]
  have hval : (q * d + r).val = q.val * d.val + r.val :=
    Fp.val_eq_of_eq_cast hcast.symm ((mul_add_lt hd hq hr).trans hbig)
  rw [← hval]
  exact Fp.val_injective.eq_iff.symm

include hp

/-- The widths that a division compares in are masked exactly. -/
private theorem masks_less {n : Nat} (hpos : 0 < n) (hn : n < 224) :
    Num.Masks (p := p) (Num.assertLessIf · · · n) fun u v => u.val < v.val ∧ v.val < 2 ^ n :=
  Num.masks_assertLessIf hp hpos (two_pow_le hbig hn)

/-- The rows force a floor division of numbers, with no wrap-around. -/
theorem forces_bind {z : Variable → Fp p} (one : z .one = 1)
    (dividend divisor quotient remainder : Num p) :
    Forces z (bind dividend divisor quotient remainder) fun _ =>
      IsFloorDivision (z dividend.var).val (z divisor.var).val (z quotient.var).val
        (z remainder.var).val := by
  refine (Num.forces_constant one 0).within.bind fun zero => ?_
  refine (Num.forces_isZero one hp divisor).within.bind fun isZero => ?_
  refine (Num.forces_isZero one hp isZero).within.bind fun isNonzero => ?_
  refine (Num.forces_assertEqualIf one isZero quotient zero).within.bind fun _ => ?_
  refine (Num.forces_mul quotient divisor).within.bind fun product => ?_
  refine (Num.forces_add one product remainder).within.bind fun recomposed => ?_
  refine (Num.forces_assertEqualIf one isNonzero recomposed dividend).within.bind fun _ => ?_
  refine ((masks_less hp hbig (by decide) (by decide)).forces one isNonzero remainder
    divisor).within.bind fun _ => ?_
  refine (Num.forces_constant one _).within.bind fun bound => ?_
  refine ((masks_less hp hbig (by decide) (by decide)).forces one isNonzero quotient
    bound).within.mono fun _ => ?_
  intro hquotient hbound hremainder hidentity hsum hproduct hzeroQuotient hnonzero hzero hconst
  -- the two bits are forced, and each switches on the rows of its own case
  by_cases hd : z divisor.var = 0
  · left
    rw [decide_eq_true hd] at hzero
    rw [hzeroQuotient hzero, hconst, hd]
    exact ⟨Fp.val_zero, Fp.val_zero⟩
  · right
    rw [decide_eq_false hd, Fp.ofBool_false] at hzero
    rw [decide_eq_true hzero] at hnonzero
    obtain ⟨hr, hdlt⟩ := hremainder hnonzero
    have hq := (hquotient hnonzero).1
    rw [hbound, val_bound hbig] at hq
    have heq := hidentity hnonzero
    rw [hsum, hproduct] at heq
    -- with the bounds in place the identity holds of the numbers themselves
    exact ⟨(Nat.zero_le _).trans_lt hr, hdlt, hq, hr, (eq_mul_add hbig hdlt hq hr).mp heq⟩

/-- The values of a floor division satisfy the rows. -/
theorem honest_bind {w : Witness p} {dividend divisor quotient remainder : Num p} {n d q r : Fp p}
    (hn : dividend.Live w n) (hd : divisor.Live w d) (hq : quotient.Live w q)
    (hr : remainder.Live w r) (h : IsFloorDivision n.val d.val q.val r.val) :
    Honest w (bind dividend divisor quotient remainder) fun _ _ => True := by
  -- what the masked assertions ask for: one where the divisor is zero, the others where it is not
  have hzero : (decide (d = 0)) = true → q = 0 := by
    intro hd0
    rw [decide_eq_true_eq] at hd0
    exact Fp.ext_val ((h.quotient_eq_zero (hd0 ▸ Fp.val_zero)).trans Fp.val_zero.symm)
  have hnonzero : decide ((Fp.ofBool (decide (d = 0)) : Fp p) = 0) = true →
      d.val < 2 ^ 64 ∧ q.val < 2 ^ 160 ∧ r.val < d.val ∧ q.val * d.val + r.val = n.val := by
    intro hd0
    rw [decide_eq_true_eq] at hd0
    refine h.of_ne_zero fun hval => ?_
    rw [decide_eq_true (Fp.ext_val (hval.trans Fp.val_zero.symm)), Fp.ofBool_true] at hd0
    exact Fp.one_ne_zero hp hd0
  refine (Num.honest_constant 0).within.bind fun w₁ zero hle₁ hconst => ?_
  refine (Num.honest_isZero hp (hd.mono hle₁)).within.bind fun w₂ isZero hle₂ hisZero => ?_
  have hle₁₂ := hle₁.trans hle₂
  refine (Num.honest_isZero hp hisZero).within.bind fun w₃ isNonzero hle₃ hisNonzero => ?_
  have hle₁₃ := hle₁₂.trans hle₃
  refine (Num.honest_assertEqualIf hp (hisZero.mono hle₃) (hq.mono hle₁₃)
    (hconst.mono (hle₂.trans hle₃)) hzero).within.bind fun w₄ _ hle₄ _ => ?_
  have hle₁₄ := hle₁₃.trans hle₄
  refine (Num.honest_mul (hq.mono hle₁₄) (hd.mono hle₁₄)).within.bind
    fun w₅ product hle₅ hproduct => ?_
  have hle₁₅ := hle₁₄.trans hle₅
  refine (Num.honest_add hproduct (hr.mono hle₁₅)).within.bind
    fun w₆ recomposed hle₆ hrecomposed => ?_
  have hle₁₆ := hle₁₅.trans hle₆
  have hle₃₆ := (hle₄.trans hle₅).trans hle₆
  refine (Num.honest_assertEqualIf hp (hisNonzero.mono hle₃₆) hrecomposed
    (hn.mono hle₁₆) fun hc => ?_).within.bind fun w₇ _ hle₇ _ => ?_
  · obtain ⟨hdlt, hqlt, hrlt, heq⟩ := hnonzero hc
    exact (eq_mul_add hbig hdlt hqlt hrlt).mpr heq
  have hle₁₇ := hle₁₆.trans hle₇
  have hle₃₇ := hle₃₆.trans hle₇
  refine ((masks_less hp hbig (by decide) (by decide)).honest (hisNonzero.mono hle₃₇)
    (hr.mono hle₁₇) (hd.mono hle₁₇) fun hc => ?_).within.bind fun w₈ _ hle₈ _ => ?_
  · obtain ⟨hdlt, _, hrlt, _⟩ := hnonzero hc
    exact ⟨hrlt, hdlt⟩
  refine (Num.honest_constant _).within.bind fun w₉ bound hle₉ hbound => ?_
  refine ((masks_less hp hbig (by decide) (by decide)).honest
    (hisNonzero.mono ((hle₃₇.trans hle₈).trans hle₉)) (hq.mono ((hle₁₇.trans hle₈).trans hle₉))
    hbound fun hc => ?_).within
  obtain ⟨_, hqlt, _, _⟩ := hnonzero hc
  rw [val_bound hbig]
  exact ⟨hqlt, by decide⟩

/-- Known operands are enough for a solving run to give a result. -/
theorem answers_bind {n d q r : Num p} (hn : n.Known) (hd : d.Known) (hq : q.Known)
    (hr : r.Known) : Answers (bind n d q r) fun _ => True := by
  have hequal : ∀ {c a b : Num p}, c.Known → a.Known → b.Known →
      Answers (Num.assertEqualIf c a b) fun _ => True := (Num.masks_assertEqualIf hp).answers
  refine (Num.answers_constant 0).within.bind fun zero hzero => ?_
  refine (Num.answers_isZero hd).within.bind fun isZero hisZero => ?_
  refine (Num.answers_isZero hisZero).within.bind fun isNonzero hisNonzero => ?_
  refine (hequal hisZero hq hzero).within.bind fun _ _ => ?_
  refine (Num.answers_mul hq hd).within.bind fun product hproduct => ?_
  refine (Num.answers_add hproduct hr).within.bind fun recomposed hrecomposed => ?_
  refine (hequal hisNonzero hrecomposed hn).within.bind fun _ _ => ?_
  refine ((masks_less hp hbig (by decide) (by decide)).answers hisNonzero hr hd).within.bind
    fun _ _ => ?_
  refine (Num.answers_constant _).within.bind fun bound hbound => ?_
  exact ((masks_less hp hbig (by decide) (by decide)).answers hisNonzero hq hbound).within

omit hp

/-- Every part of the check has a namespace of its own. -/
theorem tidy_bind (dividend divisor quotient remainder : Num p) :
    Tidy (bind dividend divisor quotient remainder) fun _ => True :=
  tidy_bind_of_le (le_capacity hbig (by decide)) dividend divisor quotient remainder

end Bind

theorem follows_bind {m m' : Mode} [Mode.AsksLess m m'] {n n' d d' q q' r r' : Num p}
    (hn : n.Alike m n') (hd : d.Alike m d') (hq : q.Alike m q') (hr : r.Alike m r') :
    Follows m m' (bind n d q r) (bind n' d' q' r') fun _ _ => True := by
  refine (Num.follows_constant 0).within.bind fun _ _ hzero => ?_
  refine (Num.follows_isZero hd).within.bind fun _ _ hisZero => ?_
  refine (Num.follows_isZero hisZero).within.bind fun _ _ hisNonzero => ?_
  refine (Num.follows_assertEqualIf hisZero hq hzero).within.bind fun _ _ _ => ?_
  refine (Num.follows_mul hq hd).within.bind fun _ _ hproduct => ?_
  refine (Num.follows_add hproduct hr).within.bind fun _ _ hrecomposed => ?_
  refine (Num.follows_assertEqualIf hisNonzero hrecomposed hn).within.bind fun _ _ _ => ?_
  refine (Num.follows_assertGapIf hisNonzero hr hd).within.bind fun _ _ _ => ?_
  refine (Num.follows_constant _).within.bind fun _ _ hbound => ?_
  exact (Num.follows_assertGapIf hisNonzero hq hbound).within

section Exact

variable (hp : p.Prime) (hbig : 2 ^ 224 < p) {s s' : System p} {n d q r : Variable}
  {z : Variable → Fp p}

include hp hbig

/-- The check on four variables is decided by its rows. -/
theorem decides_bind (hn : s.Allocated n) (hd : s.Allocated d) (hq : s.Allocated q)
    (hr : s.Allocated r) (one : z .one = 1) :
    Decides s z (bind ⟨n, none⟩ ⟨d, none⟩ ⟨q, none⟩ ⟨r, none⟩)
      (bind ⟨n, some (z n)⟩ ⟨d, some (z d)⟩ ⟨q, some (z q)⟩ ⟨r, some (z r)⟩)
      (IsFloorDivision (z n).val (z d).val (z q).val (z r).val) (fun _ _ => True)
      fun _ _ => True where
  forces z' hz' := by
    rw [← hz' n hn, ← hz' d hd, ← hz' q hq, ← hz' r hr]
    exact (forces_bind hp hbig (hz'.one one) _ _ _ _).mono fun _ h => ⟨h, trivial⟩
  honest u hu hz :=
    honest_bind hp hbig (hu.live hz hn) (hu.live hz hd) (hu.live hz hq) (hu.live hz hr)
  shape := follows_bind (Num.alike_unknown _ _) (Num.alike_unknown _ _) (Num.alike_unknown _ _)
    (Num.alike_unknown _ _)
  self := follows_bind (Num.alike_refl _ _) (Num.alike_refl _ _) (Num.alike_refl _ _)
    (Num.alike_refl _ _)

/-- In particular where the later variables can be chosen. -/
private theorem isFloorDivision_of_holds (hn : s.Allocated n) (hd : s.Allocated d)
    (hq : s.Allocated q) (hr : s.Allocated r) (one : z .one = 1)
    (hcompile : bind ⟨n, none⟩ ⟨d, none⟩ ⟨q, none⟩ ⟨r, none⟩ .compiling s = .ok () s')
    (h : ∃ z', (∀ v, s.Allocated v → z' v = z v) ∧ s'.HoldsSince s z') :
    IsFloorDivision (z n).val (z d).val (z q).val (z r).val :=
  ((decides_bind hp hbig hn hd hq hr one).solvableSince_iff hcompile one).mp h

/-- A solving run beside the compiling one, from any system that holds the
    values, keeps them and satisfies the rows. -/
private theorem solves_of_isFloorDivision (hn : s.Allocated n) (hd : s.Allocated d)
    (hq : s.Allocated q) (hr : s.Allocated r)
    (hcompile : bind ⟨n, none⟩ ⟨d, none⟩ ⟨q, none⟩ ⟨r, none⟩ .compiling s = .ok () s')
    (h : IsFloorDivision (z n).val (z d).val (z q).val (z r).val) {u : System p}
    (hu : s.Paired u) (hz : u.witness.Fits z) :
    ∃ u', bind ⟨n, some (z n)⟩ ⟨d, some (z d)⟩ ⟨q, some (z q)⟩ ⟨r, some (z r)⟩ .solving u
        = .ok () u' ∧ s'.Paired u' ∧
      (∀ v, s.Allocated v → u'.witness.value v = z v) ∧ s'.HoldsSince s u'.witness.value := by
  have hanswers := answers_bind hp hbig (n := ⟨n, some (z n)⟩) (d := ⟨d, some (z d)⟩)
    (q := ⟨q, some (z q)⟩) (r := ⟨r, some (z r)⟩) ⟨_, rfl⟩ ⟨_, rfl⟩ ⟨_, rfl⟩ ⟨_, rfl⟩
  obtain ⟨_, u', hrun, hpaired, hvalues, hholds, _⟩ :=
    (decides_bind hp hbig hn hd hq hr hz.one).solved hcompile hanswers hu hz
  exact ⟨u', hrun, hpaired, hvalues, hholds.mpr h⟩

end Exact

/-- The rows can be satisfied by some values of the gadget's own variables
    exactly when the four values are a floor division, and then by those that
    a solving run computes. -/
theorem bind_exact (hp : p.Prime) (hbig : 2 ^ 224 < p) {s : System p} {n d q r : Variable}
    (hn : s.Allocated n) (hd : s.Allocated d) (hq : s.Allocated q) (hr : s.Allocated r)
    {z : Variable → Fp p} (one : z .one = 1) :
    ∃ s', bind ⟨n, none⟩ ⟨d, none⟩ ⟨q, none⟩ ⟨r, none⟩ .compiling s = .ok () s' ∧
      ((∃ z', (∀ v, s.Allocated v → z' v = z v) ∧ s'.HoldsSince s z') ↔
        IsFloorDivision (z n).val (z d).val (z q).val (z r).val) ∧
      ((∃ z', (∀ v, s.Allocated v → z' v = z v) ∧ s'.HoldsSince s z') →
        ∀ u, s.Paired u → u.witness.Fits z →
          ∃ u', bind ⟨n, some (z n)⟩ ⟨d, some (z d)⟩ ⟨q, some (z q)⟩ ⟨r, some (z r)⟩ .solving u
              = .ok () u' ∧ s'.Paired u' ∧
            (∀ v, s.Allocated v → u'.witness.value v = z v) ∧
            s'.HoldsSince s u'.witness.value) := by
  obtain ⟨_, s', _, hcompile, _⟩ :=
    tidy_bind (p := p) hbig ⟨n, none⟩ ⟨d, none⟩ ⟨q, none⟩ ⟨r, none⟩ s
  have hsound := isFloorDivision_of_holds hp hbig hn hd hq hr one hcompile
  refine ⟨s', hcompile, ⟨hsound, fun h => ?_⟩, fun h u hu hz => ?_⟩
  · -- the values themselves, with nothing solved yet, are a system to solve from
    obtain ⟨u', _, _, hvalues, hrows⟩ := solves_of_isFloorDivision hp hbig hn hd hq hr hcompile h
      (s.paired_valued z) (s.fits_valued one)
    exact ⟨u'.witness.value, hvalues, hrows⟩
  · exact solves_of_isFloorDivision hp hbig hn hd hq hr hcompile (hsound h) hu hz

/-- Seventeen by five, with quotient three and remainder two. -/
def seventeenByFive : Variable → Fp Moduli.bn256
  | .input _ => 1
  | .aux i => Fp.ofNat ([17, 5, 3, 2].getD i 0)

theorem bind_exact_seventeenByFive : ∃ s' : System Moduli.bn256,
    bind ⟨.aux 0, none⟩ ⟨.aux 1, none⟩ ⟨.aux 2, none⟩ ⟨.aux 3, none⟩ .compiling
        { System.start with numAux := 4 } = .ok () s' ∧
      ∃ z', (∀ i < 4, z' (.aux i) = seventeenByFive (.aux i)) ∧
        s'.HoldsSince { System.start with numAux := 4 } z' := by
  obtain ⟨s', hrun, hiff, _⟩ := bind_exact Moduli.bn256_prime (by decide)
    (s := { System.start with numAux := 4 }) (n := .aux 0) (d := .aux 1) (q := .aux 2)
    (r := .aux 3) (by decide : 0 < 4) (by decide : 1 < 4) (by decide : 2 < 4) (by decide : 3 < 4)
    (z := seventeenByFive) rfl
  obtain ⟨z', hz', hrows⟩ := hiff.mpr (by decide)
  exact ⟨s', hrun, z', fun i hi => hz' (.aux i) hi, hrows⟩

/-! ## Division of one number by another -/

/-- The operands have a floor division that the rows allow. -/
def Divides (dividend divisor : Nat) : Prop :=
  divisor < 2 ^ 64 ∧ (divisor = 0 ∨ dividend / divisor < 2 ^ 160)

/-- What has a quotient divides. -/
theorem IsFloorDivision.divides {n d q r : Nat} (h : IsFloorDivision n d q r) : Divides n d := by
  rcases h with ⟨rfl, _⟩ | ⟨hpos, hd, hq, hr, heq⟩
  · exact ⟨by decide, Or.inl rfl⟩
  · refine ⟨hd, Or.inr ?_⟩
    rw [← heq, Nat.mul_comm, Nat.mul_add_div hpos, Nat.div_eq_of_lt hr]
    exact hq

/-- The remainder that the hint supplies; a division by zero leaves none. -/
def remainderOf (dividend divisor : Nat) : Nat := if divisor = 0 then 0 else dividend % divisor

/-- What divides has the quotient of numbers. -/
theorem Divides.isFloorDivision {n d : Nat} (h : Divides n d) :
    IsFloorDivision n d (n / d) (remainderOf n d) := by
  obtain ⟨hd, hq⟩ := h
  rcases Nat.eq_zero_or_pos d with rfl | hpos
  · exact Or.inl ⟨rfl, Nat.div_zero n⟩
  · right
    rw [remainderOf, if_neg hpos.ne']
    exact ⟨hpos, hd, hq.resolve_left hpos.ne', Nat.mod_lt n hpos, Nat.div_add_mod' n d⟩

/-- The hint gives quotient and remainder wherever the divisor is in range. -/
theorem hint_outputs {u v : Fp p} (hv : v.val < 2 ^ 64) :
    hint.outputs [u, v] = .ok [Fp.ofNat (u.val / v.val), Fp.ofNat (remainderOf u.val v.val)] := by
  have hcompute : hint.compute [(u.val : Int), (v.val : Int)]
      = .ok [((u.val / v.val : Nat) : Int), ((remainderOf u.val v.val : Nat) : Int)] := by
    have hsigns : ¬((u.val : Int) < 0 ∨ (v.val : Int) < 0) := by omega
    have hrange : ¬1 <<< divisorBits ≤ ((v.val : Int)).toNat := by
      rw [Int.toNat_natCast, Nat.one_shiftLeft]
      exact not_le.mpr hv
    simp only [hint]
    rw [if_neg hsigns, if_neg hrange, remainderOf]
    rcases Nat.eq_zero_or_pos v.val with h | h
    · rw [h, Nat.div_zero]
      rfl
    · rw [if_neg (by omega), if_neg h.ne', Int.natCast_div, Int.natCast_mod]
  rw [Hint.outputs, List.map_cons, List.map_cons, List.map_nil, hcompute]
  rfl

end Division

namespace Hint

/-! ## Values that a hint supplies -/

section Solve

variable (h : Hint) {w : Witness p} {m m' : Mode} [Mode.AsksLess m m']

/-- The outputs of a hint are free. -/
theorem forces_solve (z : Variable → Fp p) (xs : List (Num p)) :
    Forces z (h.solve xs) fun _ => True := by
  rw [solve]
  split
  · exact Forces.throw _ _
  · exact (Forces.listMapM (Q := fun _ _ => True) _
      fun _ _ => (Forces.mapError (Forces.aux _ _)).within).mono fun _ _ => trivial

/-- On known inputs the outputs are allocated with their values. -/
theorem honest_solve {xs : List (Num p)} {us vs : List (Fp p)} (hus : Known xs us)
    (hvs : h.outputs us = .ok vs) :
    Honest w (h.solve xs) fun w' ys => List.Forall₂ (fun v y => Num.Live w' y v) vs ys := by
  rw [h.solve_eq xs (outputValues_of_outputs hus hvs)]
  have hmap : Honest w ((vs.map some).zipIdx.mapM h.allocate) fun w' ys =>
      List.Forall₂ (fun x y => ∀ v, x.1 = some v → Num.Live w' y v) (vs.map some).zipIdx ys := by
    refine Honest.listMapM _ (fun _ _ _ _ hle hy v hv => (hy v hv).mono hle) ?_
    rintro ⟨v, i⟩ hmem w' _
    obtain ⟨u, _, rfl⟩ := List.mem_map.mp (List.fst_mem_of_mem_zipIdx hmem)
    refine (Honest.mapError (Num.honest_alloc u)).within.mono fun w'' y _ hy v hv => ?_
    obtain rfl := Option.some.inj hv
    exact hy
  refine hmap.mono fun w' ys _ hys => ?_
  rw [List.zipIdx_map, List.forall₂_map_left_iff] at hys
  exact forall₂_zipIdx.mp (hys.imp fun x y hy => hy x.1 rfl)

omit [Modulus p] in
/-- Values that a follower knows are its leader's. -/
private theorem known_of_alike {xs xs' : List (Num p)} {vs : List (Fp p)}
    (hxs : List.Forall₂ (Num.Alike m) xs xs') (hvs : Known xs vs) : Known xs' vs := by
  induction hxs generalizing vs with
  | nil => exact hvs
  | cons hx _ ih =>
      obtain ⟨v, rest, hv, hrest, rfl⟩ := List.forall₂_cons_left_iff.mp hvs
      refine .cons ?_ (ih hrest)
      rcases hx.value with h | h
      · exact absurd (hv.symm.trans h) (Option.some_ne_none v)
      · exact h.symm.trans hv

/-- A follower's outputs are its leader's where it computes values, and
    otherwise as many. -/
private theorem outputValues_alike {xs xs' : List (Num p)} {values' : List (Option (Fp p))}
    (hxs : List.Forall₂ (Num.Alike m) xs xs') (hok : h.outputValues xs' = .ok values') :
    ∃ values, h.outputValues xs = .ok values ∧ values.length = values'.length ∧
      (m.solves = true → values = values') := by
  rcases known_or_unknown xs with ⟨vs, hvs⟩ | hunknown
  · refine ⟨values', ?_, rfl, fun _ => rfl⟩
    rw [← hok, outputValues_of_known hvs, outputValues_of_known (known_of_alike hxs hvs)]
  · have hvalues := outputValues_of_unknown h hunknown
    refine ⟨List.replicate h.numOutputs none, hvalues, ?_, fun hm => ?_⟩
    · rw [List.length_replicate, length_of_outputValues hok]
    · have hsame : h.outputValues xs = h.outputValues xs' := by
        rw [outputValues, outputValues, Num.values_alike hxs hm]
      exact Except.ok.inj (hvalues.symm.trans (hsame.trans hok))

theorem follows_solve {xs xs' : List (Num p)} (hxs : List.Forall₂ (Num.Alike m) xs xs') :
    Follows m m' (h.solve xs) (h.solve xs') (List.Forall₂ (Num.Alike m)) := by
  unfold solve
  cases hleader : h.outputValues xs' with
  | error e => exact Follows.throw
  | ok values' =>
      obtain ⟨values, hfollower, hlength, hvalues⟩ := h.outputValues_alike hxs hleader
      rw [hfollower]
      have hindexed : List.Forall₂ (fun x x' : Option (Fp p) × Nat =>
          x.2 = x'.2 ∧ (m.solves = true → x.1 = x'.1)) values.zipIdx values'.zipIdx := by
        rw [List.forall₂_iff_get]
        refine ⟨by simp [hlength], fun i hi hi' => ?_⟩
        rw [List.get_eq_getElem, List.get_eq_getElem, List.getElem_zipIdx, List.getElem_zipIdx]
        refine ⟨rfl, fun hm => ?_⟩
        obtain rfl := hvalues hm
        rfl
      refine Follows.listMapM ?_ hindexed
      rintro ⟨v, i⟩ ⟨v', _⟩ ⟨rfl, hv⟩
      exact (Follows.mapError (Num.follows_alloc hv)).within

/-- On inputs that are not all known a hint compiles to free variables. -/
theorem compiles_solve {xs : List (Num p)} (hunknown : ∃ x ∈ xs, x.value = none) :
    Compiles ((List.range h.numOutputs).map fun i => s!"{h.name} output {i}") (h.solve xs)
      fun ys => ys.length = h.numOutputs := by
  rw [h.solve_eq xs (outputValues_of_unknown h hunknown)]
  have hnames : (List.replicate h.numOutputs (none : Option (Fp p))).zipIdx.map
      (fun x => s!"{h.name} output {x.2}")
      = (List.range h.numOutputs).map fun i => s!"{h.name} output {i}" := by
    have hmap := List.zipIdx_map_snd 0 (List.replicate h.numOutputs (none : Option (Fp p)))
    rw [List.length_replicate, ← List.range_eq_range'] at hmap
    rw [← hmap, List.map_map]
    rfl
  rw [← hnames]
  refine (Compiles.listMapM (Q := fun _ _ => True) _ fun x _ => ?_).mono fun ys hys => ?_
  · exact ((Num.tidy_alloc x.1).mapError.mono fun _ _ => trivial).within
  · rw [← hys.length_eq, List.length_zipIdx, List.length_replicate]

end Solve

end Hint

namespace Division

variable {z : Variable → Fp p} {w : Witness p} {m m' : Mode} [Mode.AsksLess m m'] {x y : Num p}

/-- Where the rows are satisfied the dividend can be divided, whatever was
    computed. -/
theorem forces_floorDiv (hp : p.Prime) (hbig : 2 ^ 224 < p) (one : z .one = 1) (x y : Num p) :
    Forces z (floorDiv x y) fun _ => Divides (z x.var).val (z y.var).val := by
  refine (hint.forces_solve z [x, y]).within.bind fun outputs => ?_
  split
  · next q r =>
      refine (Forces.mapError (forces_bind hp hbig one x y q r)).within.bind fun _ => ?_
      exact Forces.pure fun h _ => h.divides
  · exact Forces.throw _ _

/-- Values that divide satisfy the rows of the whole gadget. -/
theorem honest_floorDiv (hp : p.Prime) (hbig : 2 ^ 224 < p) {u v : Fp p} (hx : x.Live w u)
    (hy : y.Live w v) (h : Divides u.val v.val) : Honest w (floorDiv x y) fun _ _ => True := by
  have hvs : Hint.Known [x, y] [u, v] := .cons hx.1 (.cons hy.1 .nil)
  refine (hint.honest_solve hvs (hint_outputs h.1)).within.bind fun w₁ outputs hle houts => ?_
  obtain ⟨q, rest, hq, hrest, rfl⟩ := List.forall₂_cons_left_iff.mp houts
  obtain ⟨r, rest', hr, hnil, rfl⟩ := List.forall₂_cons_left_iff.mp hrest
  obtain rfl := List.forall₂_nil_left_iff.mp hnil
  refine (Honest.mapError (honest_bind hp hbig (hx.mono hle) (hy.mono hle) hq hr ?_)).within.bind
    fun _ _ _ _ => Honest.pure fun _ _ => trivial
  have hquot : (Fp.ofNat (u.val / v.val) : Fp p).val = u.val / v.val :=
    Nat.mod_eq_of_lt ((Nat.div_le_self _ _).trans_lt u.isLt)
  have hrem : (Fp.ofNat (remainderOf u.val v.val) : Fp p).val = remainderOf u.val v.val := by
    refine Nat.mod_eq_of_lt (lt_of_le_of_lt ?_ u.isLt)
    rw [remainderOf]
    split
    · exact Nat.zero_le _
    · exact Nat.mod_le _ _
  rw [hquot, hrem]
  exact h.isFloorDivision

theorem follows_floorDiv {x' y' : Num p} (hx : x.Alike m x') (hy : y.Alike m y') :
    Follows m m' (floorDiv x y) (floorDiv x' y') (Num.Alike m) := by
  have hxs : List.Forall₂ (Num.Alike m) [x, y] [x', y'] := .cons hx (.cons hy .nil)
  refine (hint.follows_solve hxs).within.bind fun outputs outputs' houts => ?_
  cases houts with
  | nil => exact Follows.throw
  | @cons q q' _ _ hq hrest =>
      cases hrest with
      | nil => exact Follows.throw
      | @cons r r' _ _ hr hrest =>
          cases hrest with
          | nil =>
              exact (Follows.mapError (follows_bind hx hy hq hr)).within.bind fun _ _ _ =>
                Follows.pure hq
          | cons _ _ => exact Follows.throw

/-- The gadget compiles where the field has room for a quotient and one
    digit. -/
theorem tidy_floorDiv_of_le (hcap : quotientBits + 1 ≤ Fp.capacity p) (hx : x.value = none) :
    Tidy (floorDiv x y) fun _ => True := by
  refine Compiles.tidy (N := ["hint", "bind"]) ?_ (by decide)
  have hunknown : ∃ z ∈ [x, y], z.value = none := ⟨x, List.mem_cons_self, hx⟩
  refine ((hint.compiles_solve hunknown).tidy (by decide)).within.step fun outputs houts => ?_
  obtain ⟨q, r, rfl⟩ := List.length_eq_two.mp houts
  exact (tidy_bind_of_le hcap x y q r).mapError.within.step fun _ _ => Compiles.pure trivial

/-- In particular over a prime beyond `2 ^ 224`. -/
theorem tidy_floorDiv (hbig : 2 ^ 224 < p) (hx : x.value = none) :
    Tidy (floorDiv x y) fun _ => True :=
  tidy_floorDiv_of_le (Fp.le_capacity_of_two_pow_le
    ((Nat.pow_le_pow_right Nat.two_pos (by decide)).trans hbig.le)) hx

end Division

end RankOne
