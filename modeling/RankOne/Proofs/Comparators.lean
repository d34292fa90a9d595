import RankOne.Proofs.Primes
import RankOne.Proofs.Satisfaction

/-!
# Comparators — what a bounded comparison says of its operands

    A comparator looks at the difference of its operands modulo `p` and at
    nothing else.  Read in the range centred around zero, that difference
    decides both of its circuits: the one with a result asks for a difference
    from `-2 ^ bits` up to, but not including, `2 ^ bits` and tells its sign,
    and the assertion asks for the negative ones of these.

    For the operands themselves, as numbers below `p`, this is their order
    where they are less than `2 ^ bits` apart.  A first operand that is less
    by exactly `2 ^ bits` is compared all the same, and so are operands that
    are almost `p` apart, in the opposite order.
-/

namespace RankOne

open Build

variable {p : Nat} [Modulus p]

/-! ## Differences -/

namespace Fp

/-- A difference that does not go below zero is the difference of numbers. -/
theorem val_sub_of_le {a b : Fp p} (h : b.val ≤ a.val) : (a - b).val = a.val - b.val := by
  have hval := val_gap_of_le (k := 0) h
  rwa [Nat.cast_zero, sub_zero] at hval

/-- One that does comes around the modulus. -/
theorem val_sub_of_lt {a b : Fp p} (h : a.val < b.val) : (a - b).val = p + a.val - b.val := by
  have hval := val_gap_of_lt (k := 0) h (by have := b.isLt; omega)
  rwa [Nat.cast_zero, sub_zero] at hval

section Difference

variable {bits : Nat} (a b : Fp p)

/-- The shifted difference has one digit more than the bound where the
    difference is below the bound, or the shift takes it around. -/
theorem shift_lt_iff (h : 2 ^ (bits + 1) ≤ p) :
    (pow2 bits + a - b).val < 2 ^ (bits + 1) ↔
      (a - b).val < 2 ^ bits ∨ p ≤ 2 ^ bits + (a - b).val := by
  have hshift : pow2 bits + a - b = ((2 ^ bits + (a - b).val : Nat) : Fp p) := by
    rw [Nat.cast_add, cast_val, pow2_eq_cast]
    ring
  have hx := (a - b).isLt
  rw [hshift, val_natCast]
  rw [Nat.pow_succ] at *
  by_cases hwrap : 2 ^ bits + (a - b).val < p
  · rw [Nat.mod_eq_of_lt hwrap]
    omega
  · rw [Nat.mod_eq_sub_mod (not_lt.mp hwrap), Nat.mod_eq_of_lt (by omega)]
    omega

/-- The second operand is ahead by no more than the bound where the difference
    comes as close to the modulus. -/
theorem ahead_iff (h : 2 ^ bits < p) : Ahead bits a b ↔ p ≤ 2 ^ bits + (a - b).val := by
  have hneg : (b - a).val = (p - (a - b).val) % p := by
    rw [← neg_sub a b]
    rfl
  have hx := (a - b).isLt
  rw [Ahead, hneg]
  rcases Nat.eq_zero_or_pos (a - b).val with hzero | hpos
  · rw [hzero, Nat.sub_zero, Nat.mod_self]
    omega
  · rw [Nat.mod_eq_of_lt (by omega)]
    omega

/-- The representative of a residue that is closest to zero. -/
def centred (x : Fp p) : Int := (x.val : Int).bmod p

omit [Modulus p] in
/-- The centred representative is the number itself or is less by the
    modulus. -/
theorem centred_eq (x : Fp p) :
    centred x = if 2 * x.val < p then (x.val : Int) else x.val - p := by
  have hx := x.isLt
  rw [centred, Int.bmod_def, Int.emod_eq_of_lt (by omega) (by omega)]
  split <;> split <;> omega

/-- The centred difference is within the bound where the shifted one has one
    digit more. -/
theorem centred_mem_iff (h : 2 ^ (bits + 1) ≤ p) :
    (-2 ^ bits ≤ centred (a - b) ∧ centred (a - b) < 2 ^ bits) ↔
      (pow2 bits + a - b).val < 2 ^ (bits + 1) := by
  rw [shift_lt_iff a b h, centred_eq, Nat.pow_succ] at *
  have hcast : ((2 ^ bits : Nat) : Int) = 2 ^ bits := by push_cast; rfl
  have hx := (a - b).isLt
  rw [← hcast]
  split <;> omega

/-- Of the centred differences within the bound the negative ones say that the
    second operand is ahead. -/
theorem centred_neg_iff (h : 2 ^ (bits + 1) ≤ p)
    (hmem : (pow2 bits + a - b).val < 2 ^ (bits + 1)) :
    centred (a - b) < 0 ↔ Ahead bits a b := by
  rw [shift_lt_iff a b h, Nat.pow_succ] at *
  rw [ahead_iff a b (by have := Nat.two_pow_pos bits; omega), centred_eq]
  have hx := (a - b).isLt
  split <;> omega

end Difference

/-- One number passes for less than another: it is, by at most the bound, or
    it is greater by so much that around the modulus it is less. -/
def PassesForLess (p bits u v : Nat) : Prop :=
  (u < v ∧ v ≤ u + 2 ^ bits) ∨ (v < u ∧ p + v ≤ u + 2 ^ bits)

/-- One number passes for not less than another: it is not, by less than the
    bound, or it is less by so much that around the modulus it is not. -/
def PassesForNotLess (p bits u v : Nat) : Prop :=
  (v ≤ u ∧ u < v + 2 ^ bits) ∨ (u < v ∧ p + u < v + 2 ^ bits)

instance (p bits u v : Nat) : Decidable (PassesForLess p bits u v) :=
  inferInstanceAs (Decidable (_ ∨ _))

instance (p bits u v : Nat) : Decidable (PassesForNotLess p bits u v) :=
  inferInstanceAs (Decidable (_ ∨ _))

/-- What elements are asked, asked of the numbers that represent them. -/
theorem ahead_iff_passes {bits : Nat} (h : 2 ^ bits < p) (a b : Fp p) :
    Ahead bits a b ↔ PassesForLess p bits a.val b.val := by
  rw [ahead_iff a b h, PassesForLess]
  rcases Nat.lt_or_ge a.val b.val with hlt | hle
  · rw [val_sub_of_lt hlt]
    omega
  · rw [val_sub_of_le hle]
    omega

/-- A comparison that gives an answer takes operands of which either passes for
    less. -/
theorem shift_lt_iff_passes {bits : Nat} (h : 2 ^ (bits + 1) ≤ p) (a b : Fp p) :
    (pow2 bits + a - b).val < 2 ^ (bits + 1) ↔
      PassesForLess p bits a.val b.val ∨ PassesForNotLess p bits a.val b.val := by
  have hbits := Nat.pow_succ (n := 2) (m := bits)
  rw [shift_lt_iff a b h, PassesForLess, PassesForNotLess]
  have hb := b.isLt
  rcases Nat.lt_or_ge a.val b.val with hlt | hle
  · rw [val_sub_of_lt hlt]
    omega
  · rw [val_sub_of_le hle]
    omega

/-- A power of two of at most the capacity is below an odd prime. -/
theorem two_pow_lt_of_le_capacity {bits : Nat} (hp : p.Prime) (hodd : p ≠ 2)
    (h : bits ≤ capacity p) : 2 ^ bits < p := by
  refine lt_of_le_of_ne (two_pow_le_of_le_capacity h) fun heq => ?_
  rw [← heq] at hp hodd
  rw [hp.eq_one_of_pow, Nat.pow_one] at hodd
  exact hodd rfl

end Fp

namespace Comparator

variable (cmp : Comparator)

/-! ## The two circuits -/

/-- That the comparison returns says that there was room for its digits. -/
theorem gives_isLess (a b : Num p) :
    Gives (cmp.isLess a b) fun _ => cmp.bits + 1 ≤ Fp.capacity p :=
  (LinNum.gives_toBits _ _).bind fun _ h => Gives.pure h

theorem gives_assertIsLess (a b : Num p) :
    Gives (cmp.assertIsLess a b) fun _ => cmp.bits ≤ Fp.capacity p :=
  (LinNum.gives_toBits _ _).bind fun _ h => Gives.pure h

/-- The result is the top digit of the shifted difference, turned around. -/
theorem answers_isLess {a b : Variable} {u v : Fp p} (hbits : cmp.bits + 1 ≤ Fp.capacity p) :
    Answers (cmp.isLess ⟨a, some u⟩ ⟨b, some v⟩) fun r =>
      r.value = some !(Fp.pow2 cmp.bits + u - v).val.testBit cmp.bits := by
  have hshifted : (cmp.shifted ⟨a, some u⟩ ⟨b, some v⟩).value
      = some (Fp.pow2 cmp.bits + u - v) := rfl
  refine (LinNum.answers_toBits hshifted hbits).bind fun digits hdigits => Answers.pure ?_
  have hback : digits.back = digits[cmp.bits] := Vector.back_eq_getElem
  rw [hback]
  exact Bit.value_not (hdigits cmp.bits (Nat.lt_succ_self _))

/-- A solving run gives a result for any operands. -/
theorem answers_assertIsLess {a b : Variable} {u v : Fp p} (hbits : cmp.bits ≤ Fp.capacity p) :
    Answers (cmp.assertIsLess ⟨a, some u⟩ ⟨b, some v⟩) fun _ => True :=
  (LinNum.answers_toBits rfl hbits).bind fun _ _ => Answers.pure trivial

/-- The bound stays below the modulus with a digit to spare. -/
theorem bound_lt (h : cmp.bits + 1 ≤ Fp.capacity p) : 2 ^ cmp.bits < p := by
  have hp := Fp.two_pow_le_of_le_capacity h
  rw [Nat.pow_succ] at hp
  have := Nat.two_pow_pos cmp.bits
  omega

section Compiled

variable {s s' : System p} {a b : Variable} {z : Variable → Fp p}

/-- A compiling run succeeds exactly where there is room for one digit more than
    the bound. -/
theorem isLess_ok_iff :
    (∃ r s', cmp.isLess ⟨a, none⟩ ⟨b, none⟩ .compiling s = .ok r s') ↔
      cmp.bits + 1 ≤ Fp.capacity p := by
  constructor
  · rintro ⟨r, s', hrun⟩
    exact cmp.gives_isLess _ _ .compiling s s' r hrun
  · intro hbits
    obtain ⟨r, s', _, hrun, _⟩ := cmp.tidy_isLess ⟨a, none⟩ ⟨b, none⟩ hbits s
    exact ⟨r, s', hrun⟩

theorem assertIsLess_ok_iff :
    (∃ s', cmp.assertIsLess ⟨a, none⟩ ⟨b, none⟩ .compiling s = .ok () s') ↔
      cmp.bits ≤ Fp.capacity p := by
  constructor
  · rintro ⟨s', hrun⟩
    exact cmp.gives_assertIsLess _ _ .compiling s s' () hrun
  · intro hbits
    obtain ⟨_, s', _, hrun, _⟩ := cmp.tidy_assertIsLess ⟨a, none⟩ ⟨b, none⟩ hbits s
    exact ⟨s', hrun⟩

variable {cmp} (hp : p.Prime) (ha : s.Allocated a) (hb : s.Allocated b)

section IsLess

include hp ha hb

/-- The rows of a comparison bound the difference, and leave no choice of its
    result. -/
theorem decides_isLess (hbits : cmp.bits + 1 ≤ Fp.capacity p) (one : z .one = 1) :
    Decides s z (cmp.isLess ⟨a, none⟩ ⟨b, none⟩) (cmp.isLess ⟨a, some (z a)⟩ ⟨b, some (z b)⟩)
      ((Fp.pow2 cmp.bits + z a - z b).val < 2 ^ (cmp.bits + 1))
      (fun z' r => r.Is z' (decide (Fp.Ahead cmp.bits (z a) (z b)))) (Bit.Alike .compiling) where
  forces z' hz' := by
    rw [← hz' a ha, ← hz' b hb]
    exact cmp.forces_isLess_decide hp (hz'.one one) ⟨a, none⟩ ⟨b, none⟩ (cmp.bound_lt hbits)
  honest u hu hz hlt := (cmp.honest_isLess_decide (hu.live hz ha) (hu.live hz hb) hbits hlt
    (cmp.bound_lt hbits)).mono fun _ _ _ _ => trivial
  shape := cmp.follows_isLess (Num.alike_unknown a _) (Num.alike_unknown b _)
  self := (cmp.follows_isLess (Num.alike_refl _ _) (Num.alike_refl _ _)).mono fun _ _ _ => trivial

variable {r : Bit} (hrun : cmp.isLess ⟨a, none⟩ ⟨b, none⟩ .compiling s = .ok r s')

include hrun

/-- In every solution the answer is what the operands say. -/
theorem isLess_forced {z' : Variable → Fp p} (one : z .one = 1) (hz' : s.Agrees z z')
    (hrows : s'.HoldsSince s z') : r.Is z' (decide (Fp.Ahead cmp.bits (z a) (z b))) :=
  (decides_isLess hp ha hb (cmp.gives_isLess _ _ .compiling s s' r hrun) one).forced hrun hz' hrows

/-- The rows can be solved exactly for differences in range. -/
theorem solvableSince_isLess (one : z .one = 1) :
    s'.SolvableSince s z ↔ (Fp.pow2 cmp.bits + z a - z b).val < 2 ^ (cmp.bits + 1) :=
  (decides_isLess hp ha hb (cmp.gives_isLess _ _ .compiling s s' r hrun) one).solvableSince_iff
    hrun one

/-- A solving run compares whatever operands there are; its values satisfy the
    rows where any do, and its result then has the value that they force. -/
theorem isLess_solved {u : System p} (hu : s.Paired u) (hz : u.witness.Fits z) :
    ∃ r' u', cmp.isLess ⟨a, some (z a)⟩ ⟨b, some (z b)⟩ .solving u = .ok r' u' ∧ s'.Paired u' ∧
      s.Agrees z u'.witness.value ∧
      (s'.HoldsSince s u'.witness.value ↔
        (Fp.pow2 cmp.bits + z a - z b).val < 2 ^ (cmp.bits + 1)) ∧
      ((Fp.pow2 cmp.bits + z a - z b).val < 2 ^ (cmp.bits + 1) →
        r'.value = some (decide (Fp.Ahead cmp.bits (z a) (z b)))) := by
  have hbits := cmp.gives_isLess _ _ .compiling s s' r hrun
  obtain ⟨r', u', hrun', hpaired, hvalues, hholds, _, hvalue⟩ :=
    (decides_isLess hp ha hb hbits hz.one).solved hrun (cmp.answers_isLess hbits) hu hz
  refine ⟨r', u', hrun', hpaired, hvalues, hholds, fun hlt => ?_⟩
  rw [Fp.decide_ahead (cmp.bound_lt hbits) hlt]
  exact hvalue

end IsLess

section AssertIsLess

variable (hlt : 2 ^ cmp.bits < p)

include hp ha hb hlt

/-- The assertion is decided by its rows. -/
theorem decides_assertIsLess (hbits : cmp.bits ≤ Fp.capacity p) (one : z .one = 1) :
    Decides s z (cmp.assertIsLess ⟨a, none⟩ ⟨b, none⟩)
      (cmp.assertIsLess ⟨a, some (z a)⟩ ⟨b, some (z b)⟩) (Fp.Ahead cmp.bits (z a) (z b))
      (fun _ _ => True) fun _ _ => True where
  forces z' hz' := by
    rw [← hz' a ha, ← hz' b hb]
    exact (cmp.forces_assertIsLess hp (hz'.one one) ⟨a, none⟩ ⟨b, none⟩ hlt).mono
      fun _ h => ⟨h, trivial⟩
  honest u hu hz h := cmp.honest_assertIsLess (hu.live hz ha) (hu.live hz hb) hbits h hlt
  shape := cmp.follows_assertIsLess (Num.alike_unknown a _) (Num.alike_unknown b _)
  self := cmp.follows_assertIsLess (Num.alike_refl _ _) (Num.alike_refl _ _)

variable (hrun : cmp.assertIsLess ⟨a, none⟩ ⟨b, none⟩ .compiling s = .ok () s')

include hrun

/-- Its rows can be solved exactly where the second operand is ahead. -/
theorem solvableSince_assertIsLess (one : z .one = 1) :
    s'.SolvableSince s z ↔ Fp.Ahead cmp.bits (z a) (z b) :=
  (decides_assertIsLess hp ha hb hlt (cmp.gives_assertIsLess _ _ .compiling s s' () hrun)
    one).solvableSince_iff hrun one

/-- A solving run satisfies them wherever that is possible. -/
theorem assertIsLess_solved {u : System p} (hu : s.Paired u) (hz : u.witness.Fits z) :
    ∃ u', cmp.assertIsLess ⟨a, some (z a)⟩ ⟨b, some (z b)⟩ .solving u = .ok () u' ∧
      s'.Paired u' ∧ s.Agrees z u'.witness.value ∧
      (s'.HoldsSince s u'.witness.value ↔ Fp.Ahead cmp.bits (z a) (z b)) := by
  have hbits := cmp.gives_assertIsLess _ _ .compiling s s' () hrun
  obtain ⟨_, u', hrun', hpaired, hvalues, hholds, _⟩ :=
    (decides_assertIsLess hp ha hb hlt hbits hz.one).solved hrun (cmp.answers_assertIsLess hbits)
      hu hz
  exact ⟨u', hrun', hpaired, hvalues, hholds⟩

end AssertIsLess

end Compiled

/-! ## Both circuits on one difference -/

/-- Within the capacity both circuits compile, and decide one relation on the
    centred difference of the operands: the rows of the comparison can be
    solved where it is in `[-2 ^ bits, 2 ^ bits)`, and force the result to
    tell whether it is negative; the rows of the assertion can be solved where
    those of the comparison can with a result of one.  Solving runs give a
    result for any operands, and where the rows can be solved their values
    solve them. -/
theorem comparisons_exact (hp : p.Prime) (hbits : cmp.bits + 1 ≤ Fp.capacity p) {s : System p}
    {a b : Variable} (ha : s.Allocated a) (hb : s.Allocated b) {z : Variable → Fp p}
    (one : z .one = 1) :
    ∃ r s' s'', cmp.isLess ⟨a, none⟩ ⟨b, none⟩ .compiling s = .ok r s' ∧
      cmp.assertIsLess ⟨a, none⟩ ⟨b, none⟩ .compiling s = .ok () s'' ∧
      (s'.SolvableSince s z ↔
        -2 ^ cmp.bits ≤ Fp.centred (z a - z b) ∧ Fp.centred (z a - z b) < 2 ^ cmp.bits) ∧
      (∀ z', s.Agrees z z' → s'.HoldsSince s z' →
        r.Is z' (decide (Fp.centred (z a - z b) < 0))) ∧
      (s''.SolvableSince s z ↔ ∃ z', s.Agrees z z' ∧ s'.HoldsSince s z' ∧ r.Is z' true) ∧
      ∀ u, s.Paired u → u.witness.Fits z →
        (∃ r' u', cmp.isLess ⟨a, some (z a)⟩ ⟨b, some (z b)⟩ .solving u = .ok r' u' ∧
          s'.Paired u' ∧ s.Agrees z u'.witness.value ∧
          (s'.HoldsSince s u'.witness.value ↔ s'.SolvableSince s z) ∧
          (s'.HoldsSince s u'.witness.value →
            r'.value = some (decide (Fp.centred (z a - z b) < 0)))) ∧
        ∃ u'', cmp.assertIsLess ⟨a, some (z a)⟩ ⟨b, some (z b)⟩ .solving u = .ok () u'' ∧
          s''.Paired u'' ∧ s.Agrees z u''.witness.value ∧
          (s''.HoldsSince s u''.witness.value ↔ s''.SolvableSince s z) := by
  have hlarge := Fp.two_pow_le_of_le_capacity hbits
  have hlt := cmp.bound_lt hbits
  obtain ⟨r, s', hrun⟩ := cmp.isLess_ok_iff.mpr hbits
  obtain ⟨s'', hrun'⟩ := cmp.assertIsLess_ok_iff.mpr ((Nat.le_succ _).trans hbits)
  have hless := solvableSince_isLess hp ha hb hrun one
  have hassert := solvableSince_assertIsLess hp ha hb hlt hrun' one
  have hsign : s'.SolvableSince s z →
      decide (Fp.Ahead cmp.bits (z a) (z b)) = decide (Fp.centred (z a - z b) < 0) :=
    fun h => decide_eq_decide.mpr (Fp.centred_neg_iff _ _ hlarge (hless.mp h)).symm
  refine ⟨r, s', s'', hrun, hrun', ?_, fun z' hz' hrows => ?_, ?_, fun u hu hz => ⟨?_, ?_⟩⟩
  · rw [hless, Fp.centred_mem_iff _ _ hlarge]
  · rw [← hsign ⟨z', hz', hrows⟩]
    exact isLess_forced hp ha hb hrun one hz' hrows
  · rw [hassert]
    constructor
    · intro hahead
      have hshift := (Fp.shift_lt_iff_ahead hlt _ _).mpr hahead
      obtain ⟨z', hz', hrows⟩ := hless.mpr (hshift.trans
        (Nat.pow_lt_pow_right Nat.one_lt_two (Nat.lt_succ_self _)))
      refine ⟨z', hz', hrows, ?_⟩
      have hr := isLess_forced hp ha hb hrun one hz' hrows
      rwa [decide_eq_true hahead] at hr
    · rintro ⟨z', hz', hrows, htrue⟩
      have hr := isLess_forced hp ha hb hrun one hz' hrows
      exact of_decide_eq_true (Fp.ofBool_injective hp (hr.symm.trans htrue))
  · obtain ⟨r', u', hsolve, hpaired, hvalues, hiff, hvalue⟩ := isLess_solved hp ha hb hrun hu hz
    refine ⟨r', u', hsolve, hpaired, hvalues, hiff.trans hless.symm, fun hrows => ?_⟩
    rw [← hsign (hless.mpr (hiff.mp hrows))]
    exact hvalue (hiff.mp hrows)
  · obtain ⟨u'', hsolve, hpaired, hvalues, hiff⟩ :=
      assertIsLess_solved hp ha hb hlt hrun' hu hz
    exact ⟨u'', hsolve, hpaired, hvalues, hiff.trans hassert.symm⟩

theorem comparisons_exact_threeFive : ∃ (r r' : Bit) (u' s' s'' : System Moduli.bn256),
    Comparator.isLess ⟨8⟩ ⟨.aux 0, none⟩ ⟨.aux 1, none⟩ .compiling (.ofCount 2) = .ok r s' ∧
    Comparator.assertIsLess ⟨8⟩ ⟨.aux 0, none⟩ ⟨.aux 1, none⟩ .compiling (.ofCount 2)
      = .ok () s'' ∧
    Comparator.isLess ⟨8⟩ ⟨.aux 0, some (Variable.assign [3, 5] (.aux 0))⟩
      ⟨.aux 1, some (Variable.assign [3, 5] (.aux 1))⟩ .solving
        (System.valued (.ofCount 2) (Variable.assign [3, 5])) = .ok r' u' ∧
      s'.SolvableSince (.ofCount 2) (Variable.assign [3, 5]) ∧
      s''.SolvableSince (.ofCount 2) (Variable.assign [3, 5]) ∧ r'.value = some true := by
  obtain ⟨r, s', s'', hrun, hrun', hless, hforced, hassert, hsolve⟩ :=
    comparisons_exact ⟨8⟩ Moduli.bn256_prime (Fp.le_capacity_of_two_pow_le (by decide))
      (s := .ofCount 2) (a := .aux 0) (b := .aux 1) (by decide) (by decide)
      (z := Variable.assign [3, 5]) rfl
  obtain ⟨⟨r', u', hrun'', _, _, hiff, hvalue⟩, _⟩ :=
    hsolve _ (System.paired_valued _ _) (System.fits_valued _ rfl)
  have hcentred : Fp.centred (Variable.assign [3, 5] (.aux 0) - Variable.assign [3, 5] (.aux 1) :
      Fp Moduli.bn256) = -2 := by
    rw [Fp.centred_eq]
    decide
  rw [hcentred] at hless hforced hvalue
  have hsolvable := hless.mpr (by decide)
  have hr' := hvalue (hiff.mpr hsolvable)
  obtain ⟨z', hz', hrows⟩ := hsolvable
  refine ⟨r, r', u', s', s'', hrun, hrun', hrun'', ⟨z', hz', hrows⟩, ?_, hr'⟩
  exact hassert.mpr ⟨z', hz', hrows, hforced z' hz' hrows⟩

/-! ## Both circuits on the operands -/

/-- The comparison can be solved where one of the two orders passes, and says
    which; the assertion where the one does.  For operands that are less than
    `2 ^ bits` apart that is their order. -/
theorem comparisons_accept (hp : p.Prime) (hodd : p ≠ 2) {s : System p} {a b : Variable}
    (ha : s.Allocated a) (hb : s.Allocated b) {z : Variable → Fp p} (one : z .one = 1) :
    ((∃ r s', cmp.isLess ⟨a, none⟩ ⟨b, none⟩ .compiling s = .ok r s') ↔
      cmp.bits + 1 ≤ Fp.capacity p) ∧
    ((∃ s', cmp.assertIsLess ⟨a, none⟩ ⟨b, none⟩ .compiling s = .ok () s') ↔
      cmp.bits ≤ Fp.capacity p) ∧
    (∀ r s', cmp.isLess ⟨a, none⟩ ⟨b, none⟩ .compiling s = .ok r s' →
      (s'.SolvableSince s z ↔ Fp.PassesForLess p cmp.bits (z a).val (z b).val ∨
        Fp.PassesForNotLess p cmp.bits (z a).val (z b).val) ∧
      (∀ z', s.Agrees z z' → s'.HoldsSince s z' →
        r.Is z' (decide (Fp.PassesForLess p cmp.bits (z a).val (z b).val))) ∧
      ((z a).val < (z b).val + 2 ^ cmp.bits → (z b).val < (z a).val + 2 ^ cmp.bits →
        s'.SolvableSince s z ∧ ∀ z', s.Agrees z z' → s'.HoldsSince s z' →
          r.Is z' (decide ((z a).val < (z b).val)))) ∧
    ∀ s', cmp.assertIsLess ⟨a, none⟩ ⟨b, none⟩ .compiling s = .ok () s' →
      (s'.SolvableSince s z ↔ Fp.PassesForLess p cmp.bits (z a).val (z b).val) ∧
      ((z a).val < (z b).val → (z b).val < (z a).val + 2 ^ cmp.bits → s'.SolvableSince s z) := by
  refine ⟨cmp.isLess_ok_iff, cmp.assertIsLess_ok_iff, fun r s' hrun => ?_, fun s' hrun => ?_⟩
  · have hbits := cmp.gives_isLess _ _ .compiling s s' r hrun
    have hlarge := Fp.two_pow_le_of_le_capacity hbits
    have hahead := Fp.ahead_iff_passes (cmp.bound_lt hbits) (z a) (z b)
    have hsolvable := (solvableSince_isLess hp ha hb hrun one).trans
      (Fp.shift_lt_iff_passes hlarge (z a) (z b))
    have hforced : ∀ z', s.Agrees z z' → s'.HoldsSince s z' →
        r.Is z' (decide (Fp.PassesForLess p cmp.bits (z a).val (z b).val)) := by
      intro z' hz' hrows
      rw [← decide_eq_decide.mpr hahead]
      exact isLess_forced hp ha hb hrun one hz' hrows
    refine ⟨hsolvable, hforced, fun hu hv => ?_⟩
    rw [Nat.pow_succ] at hlarge
    have horder : Fp.PassesForLess p cmp.bits (z a).val (z b).val ↔ (z a).val < (z b).val := by
      rw [Fp.PassesForLess]
      omega
    rw [decide_eq_decide.mpr horder] at hforced
    refine ⟨hsolvable.mpr ?_, hforced⟩
    rw [horder, Fp.PassesForNotLess]
    omega
  · have hbits := cmp.gives_assertIsLess _ _ .compiling s s' () hrun
    have hlt := Fp.two_pow_lt_of_le_capacity hp hodd hbits
    have hsolvable := (solvableSince_assertIsLess hp ha hb hlt hrun one).trans
      (Fp.ahead_iff_passes hlt (z a) (z b))
    exact ⟨hsolvable, fun hu hv => hsolvable.mpr (Or.inl ⟨hu, hv.le⟩)⟩

theorem comparisons_accept_fiveThree : ∃ (r : Bit) (s' : System Moduli.bn256),
    Comparator.isLess ⟨8⟩ ⟨.aux 0, none⟩ ⟨.aux 1, none⟩ .compiling (.ofCount 2) = .ok r s' ∧
      s'.SolvableSince (.ofCount 2) (Variable.assign [5, 3]) := by
  obtain ⟨⟨_, hok⟩, _, hless, _⟩ := comparisons_accept ⟨8⟩ Moduli.bn256_prime (by decide)
    (s := .ofCount 2) (a := .aux 0) (b := .aux 1) (by decide) (by decide)
    (z := Variable.assign [5, 3]) rfl
  obtain ⟨r, s', hrun⟩ := hok (Fp.le_capacity_of_two_pow_le (by decide))
  exact ⟨r, s', hrun, (hless r s' hrun).1.mpr (by decide)⟩

/-- A comparator of eight digits takes zero and 256, and says of zero and the
    greatest element that the former is not less; its assertion takes them in
    the opposite order. -/
theorem comparisons_beyond_bound : ∃ (r : Bit) (s' s'' : System Moduli.bn256),
    Comparator.isLess ⟨8⟩ ⟨.aux 0, none⟩ ⟨.aux 1, none⟩ .compiling (.ofCount 2) = .ok r s' ∧
    Comparator.assertIsLess ⟨8⟩ ⟨.aux 0, none⟩ ⟨.aux 1, none⟩ .compiling (.ofCount 2)
      = .ok () s'' ∧
      s'.SolvableSince (.ofCount 2) (Variable.assign [0, 2 ^ 8]) ∧
      s'.SolvableSince (.ofCount 2) (Variable.assign [0, Moduli.bn256 - 1]) ∧
      (∀ z', System.Agrees (.ofCount 2) (Variable.assign [0, Moduli.bn256 - 1]) z' →
        s'.HoldsSince (.ofCount 2) z' → r.Is z' false) ∧
      s''.SolvableSince (.ofCount 2) (Variable.assign [Moduli.bn256 - 1, 0]) := by
  have h0 : (System.ofCount 2 : System Moduli.bn256).Allocated (.aux 0) := by decide
  have h1 : (System.ofCount 2 : System Moduli.bn256).Allocated (.aux 1) := by decide
  have hp := Moduli.bn256_prime
  have hlt : 2 ^ 8 < Moduli.bn256 := by decide
  obtain ⟨r, s', hrun⟩ := (Comparator.isLess_ok_iff ⟨8⟩ (s := .ofCount 2) (a := .aux 0)
    (b := .aux 1)).mpr (Fp.le_capacity_of_two_pow_le (by decide : 2 ^ 9 ≤ Moduli.bn256))
  obtain ⟨s'', hrun'⟩ := (Comparator.assertIsLess_ok_iff ⟨8⟩ (s := .ofCount 2) (a := .aux 0)
    (b := .aux 1)).mpr (Fp.le_capacity_of_two_pow_le hlt.le)
  have hless : ∀ z : Variable → Fp Moduli.bn256, z .one = 1 →
      (Fp.PassesForLess Moduli.bn256 8 (z (.aux 0)).val (z (.aux 1)).val ∨
        Fp.PassesForNotLess Moduli.bn256 8 (z (.aux 0)).val (z (.aux 1)).val) →
      s'.SolvableSince (.ofCount 2) z :=
    fun z one h => (solvableSince_isLess hp h0 h1 hrun one).mpr
      ((Fp.shift_lt_iff_passes (by decide) _ _).mpr h)
  refine ⟨r, s', s'', hrun, hrun', hless _ rfl (by decide), hless _ rfl (by decide), ?_, ?_⟩
  · intro z' hz' hrows
    have hr := isLess_forced hp h0 h1 hrun rfl hz' hrows
    rwa [decide_eq_decide.mpr (Fp.ahead_iff_passes hlt _ _)] at hr
  · exact (solvableSince_assertIsLess hp h0 h1 hlt hrun' rfl).mpr
      ((Fp.ahead_iff_passes hlt _ _).mpr (by decide))

end Comparator

end RankOne
