import RankOne.Proofs.Follow
import RankOne.Proofs.Labels

/-!
# Numbers — the arithmetic gadgets

    For every operation of `Num` there are four lemmas: what its rows force on
    an assignment, that its own values satisfy them, that it runs alike in
    every mode, and that it compiles.  The zero test and the inverse are where the modulus has to
    be prime.
-/

namespace RankOne.Num

open Build

variable {p : Nat} [Modulus p] {ε : Type}

@[simp] theorem eval_lc (z : Variable → Fp p) (x : Num p) : x.lc.eval z = z x.var :=
  LinComb.eval_ofVar z x.var

/-- Every assignment that fits the run gives the variable the number's value. -/
theorem Live.eval {w : Witness p} {x : Num p} {v : Fp p} (h : x.Live w v) {z : Variable → Fp p}
    (hz : w.Fits z) : z x.var = v :=
  (eval_lc z x).symm.trans (h.2 z hz)

theorem Alike.lc {m : Mode} {x y : Num p} (h : x.Alike m y) : x.lc = y.lc :=
  congrArg LinComb.ofVar h.var

omit [Modulus p] in
/-- Where a run solves, the numbers that follow others have their values. -/
theorem values_alike {m : Mode} {xs xs' : List (Num p)} (h : List.Forall₂ (Num.Alike m) xs xs')
    (hm : m.solves = true) : xs.mapM Num.value = xs'.mapM Num.value := by
  induction h with
  | nil => rfl
  | cons hx _ ih => rw [List.mapM_cons, List.mapM_cons, hx.solved hm, ih]

/-! ## What the rows force -/

section Forces

variable {z : Variable → Fp p} (one : z .one = 1)

include one

/-- The row pins the variable to the constant. -/
theorem forces_constant (c : Fp p) : Forces z (constant c) fun x => z x.var = c := by
  refine (Forces.aux _ _).within.row fun x _ hrow => ?_
  simpa [one] using hrow

/-- The row makes the result the sum of what the operands are worth. -/
theorem forces_add (a b : Num p) : Forces z (add a b) fun x => z x.var = z a.var + z b.var := by
  refine (Forces.aux _ _).within.row fun x _ hrow => ?_
  simpa [one, eq_comm] using hrow

omit one in
/-- The row makes the result the product of what the operands are worth. -/
theorem forces_mul (a b : Num p) : Forces z (mul a b) fun x => z x.var = z a.var * z b.var := by
  refine (Forces.aux _ _).row fun x _ hrow => ?_
  simpa [eq_comm] using hrow

/-- The two rows leave the result no choice: the first makes it one at zero,
    the second makes it zero everywhere else. -/
theorem forces_isZero (hp : p.Prime) (x : Num p) :
    Forces z (isZero x) fun out => z out.var = Fp.ofBool (z x.var = 0) := by
  refine (Forces.aux _ _).within.bind fun inv => ?_
  refine (Forces.aux _ _).within.bind fun out => ?_
  refine (Forces.enforce _ _ _ _).bind fun _ => ?_
  refine (Forces.enforce _ _ _ _).bind fun _ => Forces.pure ?_
  intro hzero hinv _ _
  simp only [eval_lc, LinComb.eval_sub, LinComb.eval_one, LinComb.eval_zero, one] at hzero hinv
  -- of zero no inverse can be supplied, so the second row leaves only one
  by_cases hx : z x.var = 0
  · rw [hx, zero_mul] at hinv
    rw [decide_eq_true hx, Fp.ofBool_true]
    exact (sub_eq_zero.mp hinv.symm).symm
  · rw [decide_eq_false hx, Fp.ofBool_false]
    exact ((Fp.mul_eq_zero_iff hp).mp hzero).resolve_left hx

omit one in
/-- The result is the first operand where the condition is one, and the second
    where it is zero; of other conditions the row says nothing. -/
theorem forces_select (cond a b : Num p) : Forces z (select cond a b) fun out =>
    (z cond.var = 1 → z out.var = z a.var) ∧ (z cond.var = 0 → z out.var = z b.var) := by
  refine (Forces.aux _ _).within.row fun x _ hrow => ?_
  simp only [eval_lc, LinComb.eval_sub] at hrow
  constructor
  · intro h
    rw [h, one_mul] at hrow
    exact (sub_left_inj.mp hrow).symm
  · intro h
    rw [h, zero_mul] at hrow
    exact sub_eq_zero.mp hrow.symm

/-- The row makes the operands worth the same. -/
theorem forces_assertEqual (a b : Num p) :
    Forces z (assertEqual a b : Build p ε Unit) fun _ => z a.var = z b.var := by
  refine (Forces.enforce _ _ _ _).mono fun _ hrow => ?_
  simpa [one] using hrow

/-- No inverse can be supplied for zero. -/
theorem forces_assertNonzero (hp : p.Prime) (x : Num p) :
    Forces z (assertNonzero x) fun _ => z x.var ≠ 0 := by
  refine (Forces.aux _ _).within.bind fun inv => (Forces.enforce _ _ _ _).mono fun _ hrow => ?_
  intro _ hx
  simp only [eval_lc, LinComb.eval_one, one, hx, zero_mul] at hrow
  exact Fp.one_ne_zero hp hrow.symm

end Forces

/-! ## Honest values -/

section Honest

variable {w : Witness p}

/-- A private number is worth the value that it was given. -/
theorem honest_alloc (v : Fp p) : Honest w (alloc (some v)) fun w' x => x.Live w' v :=
  Honest.aux

theorem honest_constant (c : Fp p) : Honest w (constant c) fun w' x => x.Live w' c := by
  refine (honest_alloc c).within.row ?_ ?_
  · intro w' x z _ hx hz
    simp [hx.eval hz, hz.one]
  · intro w' w'' x hle hx
    exact hx.mono hle

/-- The sum of the values satisfies the row of the sum. -/
theorem honest_add {a b : Num p} {u v : Fp p} (ha : a.Live w u) (hb : b.Live w v) :
    Honest w (add a b) fun w' x => x.Live w' (u + v) := by
  rw [add, ha.1, hb.1]
  refine (honest_alloc (u + v)).within.row ?_ ?_
  · intro w' x z hle hx hz
    simp [hx.eval hz, (ha.mono hle).eval hz, (hb.mono hle).eval hz, hz.one]
  · intro w' w'' x hle hx
    exact hx.mono hle

/-- The product of the values satisfies the row of the product. -/
theorem honest_mul {a b : Num p} {u v : Fp p} (ha : a.Live w u) (hb : b.Live w v) :
    Honest w (mul a b) fun w' x => x.Live w' (u * v) := by
  rw [mul, ha.1, hb.1]
  refine Honest.aux.row ?_ ?_
  · intro w' x z hle (hx : x.Live w' (u * v)) hz
    simp [hx.eval hz, (ha.mono hle).eval hz, (hb.mono hle).eval hz]
  · intro w' w'' x hle hx
    exact hx.mono hle

/-- The inverse that is computed satisfies both rows, also for zero, where it is
    zero. -/
theorem honest_isZero (hp : p.Prime) {x : Num p} {v : Fp p} (hx : x.Live w v) :
    Honest w (isZero x) fun w' out => out.Live w' (Fp.ofBool (v = 0)) := by
  rw [isZero, hx.1]
  refine (honest_alloc (Fp.inv v)).within.bind fun w₁ inv hle₁ hinv => ?_
  refine (honest_alloc (Fp.ofBool (v = 0))).within.bind fun w₂ out hle₂ hout => ?_
  have hinv' := hinv.mono hle₂
  have hx' := hx.mono (hle₁.trans hle₂)
  have hinverse : ∀ z, w₂.Fits z →
      x.lc.eval z * inv.lc.eval z = (1 - out.lc : LinComb p).eval z := by
    intro z hz
    simp only [eval_lc, LinComb.eval_sub, LinComb.eval_one, hz.one, hx'.eval hz, hinv'.eval hz,
      hout.eval hz]
    by_cases hv : v = 0
    · rw [decide_eq_true hv, Fp.ofBool_true, hv, zero_mul, sub_self]
    · rw [decide_eq_false hv, Fp.ofBool_false, Fp.mul_inv_cancel hp hv, sub_zero]
  have hzero : ∀ z, w₂.Fits z → x.lc.eval z * out.lc.eval z = (0 : LinComb p).eval z := by
    intro z hz
    simp only [eval_lc, LinComb.eval_zero, hx'.eval hz, hout.eval hz]
    by_cases hv : v = 0
    · rw [hv, zero_mul]
    · rw [decide_eq_false hv, Fp.ofBool_false, mul_zero]
  refine (Honest.enforce hinverse).bind fun w₃ _ hle₃ _ => ?_
  refine (Honest.enforce fun z hz => hzero z (hz.mono hle₃)).bind fun w₄ _ hle₄ _ => ?_
  refine Honest.pure fun w₅ hle₅ => ?_
  exact hout.mono ((hle₃.trans hle₄).trans hle₅)

/-- On a condition that is a truth value the selected value satisfies the
    row. -/
theorem honest_select (hp : p.Prime) {cond a b : Num p} {c : Bool} {u v : Fp p}
    (hc : cond.Live w (Fp.ofBool c)) (ha : a.Live w u) (hb : b.Live w v) :
    Honest w (select cond a b) fun w' out => out.Live w' (if c then u else v) := by
  -- the condition is tested against zero, and a bit is zero where it is not set
  have hvalue : (do if (← cond.value) = 0 then b.value else a.value)
      = some (if c then u else v) := by
    rw [hc.1]
    cases c with
    | false =>
        show (if (0 : Fp p) = 0 then b.value else a.value) = some v
        rw [if_pos rfl, hb.1]
    | true =>
        show (if (1 : Fp p) = 0 then b.value else a.value) = some u
        rw [if_neg (Fp.one_ne_zero hp), ha.1]
  rw [select, hvalue]
  refine (honest_alloc (if c then u else v)).within.row ?_ ?_
  · intro w' x z hle hx hz
    simp only [eval_lc, LinComb.eval_sub, (hc.mono hle).eval hz, (ha.mono hle).eval hz,
      (hb.mono hle).eval hz, hx.eval hz]
    cases c with
    | false => simp
    | true => simp
  · intro w' w'' x hle hx
    exact hx.mono hle

/-- Numbers of one value may be asserted equal. -/
theorem honest_assertEqual {a b : Num p} {v : Fp p} (ha : a.Live w v) (hb : b.Live w v) :
    Honest w (assertEqual a b : Build p ε Unit) fun _ _ => True := by
  refine Honest.enforce fun z hz => ?_
  simp [ha.eval hz, hb.eval hz, hz.one]

/-- The inverse of a value that is not zero satisfies the row. -/
theorem honest_assertNonzero (hp : p.Prime) {x : Num p} {v : Fp p} (hx : x.Live w v)
    (hv : v ≠ 0) : Honest w (assertNonzero x) fun _ _ => True := by
  rw [assertNonzero, hx.1]
  refine (honest_alloc (Fp.inv v)).within.bind fun w₁ inv hle₁ hinv => ?_
  refine Honest.enforce fun z hz => ?_
  simp [hinv.eval hz, (hx.mono hle₁).eval hz, hz.one, Fp.mul_inv_cancel hp hv]

end Honest

/-! ## Runs alike -/

section Follows

variable {m m' : Mode} [Mode.AsksLess m m']

omit [Modulus p] in
/-- Allocation runs alike for values that are the same wherever the follower
    looks at them. -/
theorem follows_alloc {u v : Option (Fp p)} (h : m.solves = true → u = v) :
    Follows m m' (alloc u) (alloc v) (Num.Alike m) :=
  Follows.aux h

omit [Modulus p] in
/-- So it does for a public number. -/
theorem follows_allocInput {u v : Option (Fp p)} (h : m.solves = true → u = v) :
    Follows m m' (allocInput u) (allocInput v) (Num.Alike m) :=
  Follows.input h

/-- A constant has a value in every mode, so nothing is asked for. -/
theorem follows_constant (c : Fp p) :
    Follows m m' (constant c) (constant c) (Num.Alike m) := by
  have halloc : Follows m m' (within "value" (alloc (some c))) (within "value" (alloc (some c)))
      (Num.Alike m) := (follows_alloc fun _ => rfl).within
  exact halloc.row (fun _ _ h => h.lc) (fun _ _ _ => rfl) (fun _ _ _ => rfl) fun _ _ h => h

theorem follows_add {a a' b b' : Num p} (ha : a.Alike m a') (hb : b.Alike m b') :
    Follows m m' (add a b) (add a' b') (Num.Alike m) := by
  refine (follows_alloc fun h => ?_).within.row ?_ (fun _ _ _ => rfl) ?_ fun _ _ h => h
  · rw [ha.solved h, hb.solved h]
  · intro x y _
    rw [ha.lc, hb.lc]
  · intro x y h
    exact h.lc

theorem follows_mul {a a' b b' : Num p} (ha : a.Alike m a') (hb : b.Alike m b') :
    Follows m m' (mul a b) (mul a' b') (Num.Alike m) := by
  refine (Follows.aux fun h => ?_).row (fun _ _ _ => ha.lc) (fun _ _ _ => hb.lc) ?_
    fun _ _ h => h
  · rw [ha.solved h, hb.solved h]
  · intro x y h
    exact h.lc

/-- Both auxiliary values are made of the operand's value alone. -/
theorem follows_isZero {x x' : Num p} (hx : x.Alike m x') :
    Follows m m' (isZero x) (isZero x') (Num.Alike m) := by
  refine (follows_alloc fun h => ?_).within.bind fun inv inv' hinv => ?_
  · rw [hx.solved h]
  refine (follows_alloc fun h => ?_).within.bind fun out out' hout => ?_
  · rw [hx.solved h]
  refine (Follows.enforce hx.lc hinv.lc ?_).bind fun _ _ _ => ?_
  · rw [hout.lc]
  exact (Follows.enforce hx.lc hout.lc rfl).bind fun _ _ _ => Follows.pure hout

/-- The follower looks at the condition and the operand that it selects. -/
theorem follows_select {c c' a a' b b' : Num p} (hc : c.Alike m c') (ha : a.Alike m a')
    (hb : b.Alike m b') : Follows m m' (select c a b) (select c' a' b') (Num.Alike m) := by
  refine (follows_alloc fun h => ?_).within.row (fun _ _ _ => hc.lc) ?_ ?_ fun _ _ h => h
  · rw [hc.solved h, ha.solved h, hb.solved h]
  · intro x y _
    rw [ha.lc, hb.lc]
  · intro x y h
    rw [h.lc, hb.lc]

omit [Mode.AsksLess m m'] in
theorem follows_assertEqual {a a' b b' : Num p} (ha : a.Alike m a') (hb : b.Alike m b') :
    Follows m m' (assertEqual a b : Build p ε Unit) (assertEqual a' b' : Build p ε Unit)
      fun _ _ => True :=
  Follows.enforce ha.lc rfl hb.lc

theorem follows_assertNonzero {x x' : Num p} (hx : x.Alike m x') :
    Follows m m' (assertNonzero x) (assertNonzero x') fun _ _ => True := by
  refine (follows_alloc fun h => ?_).within.bind fun inv inv' hinv => ?_
  · rw [hx.solved h]
  · exact Follows.enforce hx.lc hinv.lc rfl

end Follows

/-! ## Compiling -/

section Compiling

variable (x a b cond : Num p) (value : Option (Fp p)) (c : Fp p)

omit [Modulus p] in
/-- A number is one variable, which has no value in a compiling run. -/
theorem tidy_alloc : Tidy (alloc value) fun x => x.value = none :=
  (Compiles.aux "num" value).tidy (by decide)

theorem tidy_constant : Tidy (constant c) fun x => x.value = none := by
  have hnames : Compiles ["value", "constant"] (constant c) fun x => x.value = none :=
    (tidy_alloc _).within.row fun _ hx => hx
  exact hnames.tidy (by decide)

theorem tidy_add : Tidy (add a b) fun x => x.value = none := by
  have hnames : Compiles ["sum", "a + b = sum"] (add a b) fun x => x.value = none :=
    (tidy_alloc _).within.row fun _ hx => hx
  exact hnames.tidy (by decide)

theorem tidy_mul : Tidy (mul a b) fun x => x.value = none := by
  have hnames : Compiles ["product num", "multiplication constraint"] (mul a b)
      fun x => x.value = none := (Compiles.aux _ _).row fun _ hx => hx
  exact hnames.tidy (by decide)

/-- The zero test gives four names, two for variables and two for rows. -/
theorem tidy_isZero : Tidy (isZero x) fun x => x.value = none := by
  refine Compiles.tidy (N := ["inv", "out", "x * inv = 1 - out", "x * out = 0"]) ?_ (by decide)
  refine (tidy_alloc _).within.step fun inv _ => ?_
  refine (tidy_alloc _).within.step fun out hout => ?_
  refine (Compiles.enforce _ _ _ _).step fun _ _ => ?_
  refine (Compiles.enforce _ _ _ _).step fun _ _ => ?_
  exact Compiles.pure hout

theorem tidy_select : Tidy (select cond a b) fun x => x.value = none := by
  have hnames : Compiles ["out", "select"] (select cond a b) fun x => x.value = none :=
    (tidy_alloc _).within.row fun _ hx => hx
  exact hnames.tidy (by decide)

theorem tidy_assertEqual : Tidy (assertEqual a b : Build p ε Unit) fun _ => True :=
  (Compiles.enforce _ _ _ _).tidy (by decide)

/-- The inverse that is asserted has one name, and its row another. -/
theorem tidy_assertNonzero : Tidy (assertNonzero x) fun _ => True := by
  refine Compiles.tidy (N := ["inv", "x * inv = 1"]) ?_ (by decide)
  exact (tidy_alloc _).within.step fun _ _ => Compiles.enforce _ _ _ _

end Compiling

end RankOne.Num
