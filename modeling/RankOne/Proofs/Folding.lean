import RankOne.Proofs.Meanings

/-!
# Folding — gates on constants, variables and negations

    What is known of a gate on variables is known of the gate on any bits: each
    judgement below is one that folds, so that its gates on variables are all
    that has to be looked at.  What rows force is a polynomial of the operands,
    whichever case a gate takes; an honest run gives the Boolean operation; and
    runs on operands alike are alike.
-/

namespace RankOne.Bit

open Build

variable {p : Nat} [Modulus p]

/-! ## What the rows force -/

section Forces

variable {z : Variable → Fp p} (one : z .one = 1)

include one

/-- To force a polynomial of what operands are worth is a judgement that folds:
    a constant is worth its truth value, and a negation what is left to one. -/
theorem folds_forces : Folds Meaning.polynomial (fun a x => a.val z = x)
    fun body m => Forces z body fun r => r.val z = m where
  of_const h := h.symm.trans (val_const one _)
  const v := val_const one v
  not h := (val_not one _).trans (congrArg (1 - ·) h)
  give h := .pure h
  negate h := .map (h.mono fun _ hr => (val_not one _).trans (congrArg (1 - ·) hr))

/-- Whichever gate is chosen, the result is worth `a + b - 2ab`. -/
theorem forces_xor (a b : Bit) : Forces z (xor (p := p) a b) fun r =>
    r.val z = a.val z + b.val z - 2 * a.val z * b.val z := by
  refine (folds_forces one).xor rfl rfl fun ha hb => ?_
  show Forces z _ fun r : Bit => r.val z = a.val z + b.val z - 2 * a.val z * b.val z
  -- of two variables the signs are drawn out
  cases a with
  | const v => exact absurd rfl (ha v)
  | pos x =>
      cases b with
      | const v => exact absurd rfl (hb v)
      | pos y =>
          refine (BitVar.forces_xor _ _).bind fun r => Forces.pure fun hr => ?_
          rw [val_pos, val_pos, val_pos, hr]
      | neg y =>
          refine (BitVar.forces_xor _ _).bind fun r => Forces.pure fun hr => ?_
          rw [val_neg one, val_neg one, val_pos, hr]
          ring
  | neg x =>
      cases b with
      | const v => exact absurd rfl (hb v)
      | pos y =>
          refine (BitVar.forces_xor _ _).bind fun r => Forces.pure fun hr => ?_
          rw [val_neg one, val_neg one, val_pos, hr]
          ring
      | neg y =>
          refine (BitVar.forces_xor _ _).bind fun r => Forces.pure fun hr => ?_
          rw [val_neg one, val_neg one, val_pos, hr]
          ring

/-- Whichever gate is chosen, the result is worth the product. -/
theorem forces_and (a b : Bit) : Forces z (and (p := p) a b) fun r =>
    r.val z = a.val z * b.val z := by
  refine (folds_forces one).and rfl rfl fun ha hb => ?_
  show Forces z _ fun r : Bit => r.val z = a.val z * b.val z
  -- each pair of signs has a gate of its own
  cases a with
  | const v => exact absurd rfl (ha v)
  | pos x =>
      cases b with
      | const v => exact absurd rfl (hb v)
      | pos y =>
          refine (BitVar.forces_and _ _).bind fun r => Forces.pure fun hr => ?_
          rw [val_pos, val_pos, val_pos, hr]
      | neg y =>
          refine (BitVar.forces_andNot one _ _).bind fun r => Forces.pure fun hr => ?_
          rw [val_neg one, val_pos, val_pos, hr]
  | neg x =>
      cases b with
      | const v => exact absurd rfl (hb v)
      | pos y =>
          refine (BitVar.forces_andNot one _ _).bind fun r => Forces.pure fun hr => ?_
          rw [val_neg one, val_pos, val_pos, hr, mul_comm]
      | neg y =>
          refine (BitVar.forces_nor one _ _).bind fun r => Forces.pure fun hr => ?_
          rw [val_neg one, val_neg one, val_pos, hr]

/-- The product of two operands, whatever they are called. -/
private theorem forces_and_of_eq {a b : Bit} {x y : Fp p} (ha : a.val z = x) (hb : b.val z = y) :
    Forces z (and (p := p) a b) fun r => r.val z = x * y := by
  rw [← ha, ← hb]
  exact forces_and one a b

omit one in
/-- The row of a choice, solved for the result. -/
private theorem forces_chooseVar (a b c : Bit) : Forces z (chooseVar (p := p) a b c) fun r =>
    r.val z = a.val z * (b.val z - c.val z) + c.val z := by
  refine (Forces.aux _ _).row fun ch _ hrow => ?_
  simp only [LinComb.eval_sub, LinComb.eval_ofVar, eval_lc, one_mul] at hrow
  rw [val_pos]
  linear_combination -hrow

/-- On truth values this is `b` where `a` is one and `c` where it is zero. -/
theorem forces_choose (a b c : Bit) : Forces z (choose (p := p) a b c) fun r =>
    r.val z = a.val z * (b.val z - c.val z) + c.val z :=
  (folds_forces one).choose rfl rfl rfl (forces_and_of_eq one)
    fun _ _ _ => forces_chooseVar a b c

/-- The conjunction of two operands stands in the row of the majority. -/
private theorem forces_majorityVar (a b c : Bit) : Forces z (majorityVar (p := p) a b c) fun r =>
    r.val z = a.val z * b.val z + a.val z * c.val z + b.val z * c.val z
      - 2 * a.val z * b.val z * c.val z := by
  refine (Forces.aux _ _).bind fun maj => ?_
  refine (forces_and one b c).within.row fun bc hbc hrow _ => ?_
  simp only [LinComb.eval_sub, LinComb.eval_add, LinComb.eval_ofVar, eval_lc, one_mul, hbc]
    at hrow
  rw [val_pos]
  linear_combination hrow

/-- On truth values this is one where two operands are. -/
theorem forces_majority (a b c : Bit) : Forces z (majority (p := p) a b c) fun r =>
    r.val z = a.val z * b.val z + a.val z * c.val z + b.val z * c.val z
      - 2 * a.val z * b.val z * c.val z :=
  (folds_forces one).majority rfl rfl rfl (forces_and_of_eq one)
    fun _ _ _ => forces_majorityVar one a b c

/-- Comparing with the constant one pins a bit. -/
theorem forces_enforceEqual_true (a : Bit) :
    Forces z (enforceEqual (p := p) a (.const true)) fun _ => a.Is z true := by
  have h : ∀ b : Bit, Forces z
      (Build.enforce "enforce equal to one" 0 0 (1 - b.lc (1 : Fp p)) : Build p SynthesisError Unit)
      fun _ => b.Is z true := by
    intro b
    refine (Forces.enforce _ _ _ _).mono fun _ hrow => ?_
    simp only [LinComb.eval_zero, LinComb.eval_sub, LinComb.eval_one, eval_lc, one, one_mul,
      mul_zero] at hrow
    exact (sub_eq_zero.mp hrow.symm).symm
  cases a with
  | const v =>
      cases v with
      | false => exact Forces.throw _ _
      | true => exact Forces.pure (val_const one true)
  | pos x => exact h _
  | neg x => exact h _

end Forces

/-! ## Honest values -/

section Honest

variable {w : Witness p} {a b c : Bit} {x y v : Bool}

/-- That a run is honest is a judgement that folds, with truth values for
    meanings. -/
theorem folds_honest : Folds Meaning.truth (fun a x => a.Live w x)
    fun body m => Honest w body fun w' r => r.Live w' m where
  of_const h := (Option.some.inj h.1).symm
  const v := .const w v
  not h := h.not
  give h := .pure fun _ hle => h.mono hle
  negate h := .map (h.mono fun _ _ _ hr => hr.not)

/-- An honest run gives the exclusive or of the operands' values. -/
theorem honest_xor (ha : a.Live w x) (hb : b.Live w y) :
    Honest w (xor (p := p) a b) fun w' r => r.Live w' (x ^^ y) := by
  refine folds_honest.xor ha hb fun ha' hb' => ?_
  -- of two variables the signs are drawn out
  cases a with
  | const u => exact absurd rfl (ha' u)
  | pos a =>
      cases b with
      | const u => exact absurd rfl (hb' u)
      | pos b =>
          refine (BitVar.honest_xor (live_pos.mp ha) (live_pos.mp hb)).bind fun w₁ r _ hr => ?_
          exact Honest.pure fun w₂ hle => live_pos.mpr (hr.mono hle)
      | neg b =>
          refine (BitVar.honest_xor (live_pos.mp ha) (live_neg.mp hb)).bind fun w₁ r _ hr => ?_
          refine Honest.pure fun w₂ hle => ?_
          rw [live_neg]
          rw [Bool.xor_not] at hr
          exact hr.mono hle
  | neg a =>
      cases b with
      | const u => exact absurd rfl (hb' u)
      | pos b =>
          refine (BitVar.honest_xor (live_pos.mp hb) (live_neg.mp ha)).bind fun w₁ r _ hr => ?_
          refine Honest.pure fun w₂ hle => ?_
          rw [live_neg]
          rw [Bool.xor_not, Bool.xor_comm] at hr
          exact hr.mono hle
      | neg b =>
          refine (BitVar.honest_xor (live_neg.mp ha) (live_neg.mp hb)).bind fun w₁ r _ hr => ?_
          refine Honest.pure fun w₂ hle => ?_
          rw [live_pos]
          rw [Bool.not_xor_not] at hr
          exact hr.mono hle

/-- An honest run gives the conjunction of the operands' values. -/
theorem honest_and (ha : a.Live w x) (hb : b.Live w y) :
    Honest w (and (p := p) a b) fun w' r => r.Live w' (x && y) := by
  refine folds_honest.and ha hb fun ha' hb' => ?_
  -- each pair of signs has a gate of its own
  cases a with
  | const u => exact absurd rfl (ha' u)
  | pos a =>
      cases b with
      | const u => exact absurd rfl (hb' u)
      | pos b =>
          refine (BitVar.honest_and (live_pos.mp ha) (live_pos.mp hb)).bind fun w₁ r _ hr => ?_
          exact Honest.pure fun w₂ hle => live_pos.mpr (hr.mono hle)
      | neg b =>
          refine (BitVar.honest_andNot (live_pos.mp ha) (live_neg.mp hb)).bind fun w₁ r _ hr => ?_
          refine Honest.pure fun w₂ hle => ?_
          rw [Bool.not_not] at hr
          exact live_pos.mpr (hr.mono hle)
  | neg a =>
      cases b with
      | const u => exact absurd rfl (hb' u)
      | pos b =>
          refine (BitVar.honest_andNot (live_pos.mp hb) (live_neg.mp ha)).bind fun w₁ r _ hr => ?_
          refine Honest.pure fun w₂ hle => ?_
          rw [Bool.not_not, Bool.and_comm] at hr
          exact live_pos.mpr (hr.mono hle)
      | neg b =>
          refine (BitVar.honest_nor (live_neg.mp ha) (live_neg.mp hb)).bind fun w₁ r _ hr => ?_
          refine Honest.pure fun w₂ hle => ?_
          rw [Bool.not_not, Bool.not_not] at hr
          exact live_pos.mpr (hr.mono hle)

/-- The variable of a gate on three bits, which has the gate's value. -/
private theorem honest_aux₃ {name : String} (f : Bool → Bool → Bool → Bool) (ha : a.Live w x)
    (hb : b.Live w y) (hc : c.Live w v) :
    Honest w (Build.aux name ((valueOf₃ f a b c).map Fp.ofBool)) fun w' r =>
      (pos ⟨r.var, valueOf₃ f a b c⟩).Live w' (f x y v) := by
  have hvalue : valueOf₃ f a b c = some (f x y v) := by
    rw [valueOf₃, ha.1, hb.1, hc.1]
    rfl
  rw [hvalue]
  exact Honest.aux.mono fun w' r _ hr => live_pos.mpr ⟨rfl, hr.2⟩

/-- The values satisfy the row of a choice. -/
private theorem honest_chooseVar (ha : a.Live w x) (hb : b.Live w y) (hc : c.Live w v) :
    Honest w (chooseVar (p := p) a b c) fun w' r => r.Live w' (choice x y v) := by
  refine (honest_aux₃ choice ha hb hc).row ?_ ?_
  · intro w' r z hle hr hz
    have hr' := hr.2 z hz
    have ha' := ha.2 z (hz.mono hle)
    have hb' := hb.2 z (hz.mono hle)
    have hc' := hc.2 z (hz.mono hle)
    rw [Is, val_pos] at hr'
    rw [Is] at ha' hb' hc'
    simp only [LinComb.eval_sub, LinComb.eval_ofVar, eval_lc, hr', ha', hb', hc', Fp.ofBool_choice]
    ring
  · intro w' w'' r hle hr
    exact hr.mono hle

/-- An honest run gives the chosen operand's value. -/
theorem honest_choose (ha : a.Live w x) (hb : b.Live w y) (hc : c.Live w v) :
    Honest w (choose (p := p) a b c) fun w' r => r.Live w' (choice x y v) :=
  folds_honest.choose ha hb hc honest_and fun _ _ _ => honest_chooseVar ha hb hc

/-- The values satisfy the row of a majority and those of the conjunction in
    it. -/
private theorem honest_majorityVar (ha : a.Live w x) (hb : b.Live w y) (hc : c.Live w v) :
    Honest w (majorityVar (p := p) a b c) fun w' r => r.Live w' (most x y v) := by
  refine (honest_aux₃ most ha hb hc).bind fun w₁ r hle₁ hr => ?_
  have hbc : Honest w₁ (within "b and c" (and (p := p) b c)) fun w' bc =>
      bc.Live w' (y && v) ∧ w₁ ≤ w' :=
    (honest_and (hb.mono hle₁) (hc.mono hle₁)).within.mono fun w' bc hle h => ⟨h, hle⟩
  refine hbc.row ?_ ?_
  · intro w₂ bc z hle₂ hbc hz
    have hr' := hr.2 z (hz.mono hle₂)
    have hbc' := hbc.1.2 z hz
    have ha' := ha.2 z (hz.mono (hle₁.trans hle₂))
    have hb' := hb.2 z (hz.mono (hle₁.trans hle₂))
    have hc' := hc.2 z (hz.mono (hle₁.trans hle₂))
    rw [Is, val_pos] at hr'
    rw [Is] at hbc' ha' hb' hc'
    simp only [LinComb.eval_sub, LinComb.eval_add, LinComb.eval_ofVar, eval_lc, hr', hbc', ha', hb',
      hc', Fp.ofBool_most, Fp.ofBool_and]
    ring
  · intro w₂ w₃ bc hle₃ hbc
    exact hr.mono (hbc.2.trans hle₃)

/-- An honest run gives the value of the majority. -/
theorem honest_majority (ha : a.Live w x) (hb : b.Live w y) (hc : c.Live w v) :
    Honest w (majority (p := p) a b c) fun w' r => r.Live w' (most x y v) :=
  folds_honest.majority ha hb hc honest_and fun _ _ _ => honest_majorityVar ha hb hc

/-- A bit that is set may be compared with the constant one. -/
theorem honest_enforceEqual_true (ha : a.Live w true) :
    Honest w (enforceEqual (p := p) a (.const true)) fun _ _ => True := by
  have h : Honest w (Build.enforce "enforce equal to one" 0 0 (1 - a.lc (1 : Fp p)) :
      Build p SynthesisError Unit) fun _ _ => True := by
    refine Honest.enforce fun z hz => ?_
    have ha' := ha.2 z hz
    rw [Is, Fp.ofBool_true] at ha'
    simp [eval_lc, ha', hz.one]
  cases a with
  | const v =>
      obtain rfl := Option.some.inj ha.1
      exact Honest.pure fun _ _ => trivial
  | pos x => exact h
  | neg x => exact h

end Honest

/-! ## Runs alike -/

section Follows

variable {m m' : Mode} [Mode.AsksLess m m'] {a a' b b' c c' : Bit}

omit [Mode.AsksLess m m'] in
/-- To run alike is a judgement that folds: bits alike are folded alike, and the
    circuit is the meaning. -/
theorem folds_follows : Folds (p := p) Meaning.circuit (Alike m)
    fun body body' => Follows m m' body body' (Alike m) where
  of_const h := by
    cases h
    rfl
  const v := .const v
  not h := h.not
  give h := .pure h
  negate h := .map (h.mono fun _ _ hr => hr.not)

omit [Modulus p] [Mode.AsksLess m m'] in
/-- Bits alike are constants together. -/
theorem Alike.isVar (h : a.Alike m a') (ha : a.IsVar) : a'.IsVar := by
  cases h with
  | const v => exact ha
  | pos h => exact isVar_pos _
  | neg h => exact isVar_neg _

/-- Operands alike have signs alike, so that the same gate is taken. -/
theorem follows_xor (ha : a.Alike m a') (hb : b.Alike m b') :
    Follows m m' (xor (p := p) a b) (xor a' b') (Alike m) := by
  refine folds_follows.xor ha hb fun ha' hb' => ?_
  cases ha with
  | const v => exact absurd rfl (ha' v)
  | pos hx =>
      cases hb with
      | const v => exact absurd rfl (hb' v)
      | pos hy => exact (BitVar.follows_xor hx hy).bind fun _ _ h => Follows.pure (.pos h)
      | neg hy => exact (BitVar.follows_xor hx hy).bind fun _ _ h => Follows.pure (.neg h)
  | neg hx =>
      cases hb with
      | const v => exact absurd rfl (hb' v)
      | pos hy => exact (BitVar.follows_xor hy hx).bind fun _ _ h => Follows.pure (.neg h)
      | neg hy => exact (BitVar.follows_xor hx hy).bind fun _ _ h => Follows.pure (.pos h)

/-- Operands alike take the same one of four gates. -/
theorem follows_and (ha : a.Alike m a') (hb : b.Alike m b') :
    Follows m m' (and (p := p) a b) (and a' b') (Alike m) := by
  refine folds_follows.and ha hb fun ha' hb' => ?_
  cases ha with
  | const v => exact absurd rfl (ha' v)
  | pos hx =>
      cases hb with
      | const v => exact absurd rfl (hb' v)
      | pos hy => exact (BitVar.follows_and hx hy).bind fun _ _ h => Follows.pure (.pos h)
      | neg hy => exact (BitVar.follows_andNot hx hy).bind fun _ _ h => Follows.pure (.pos h)
  | neg hx =>
      cases hb with
      | const v => exact absurd rfl (hb' v)
      | pos hy => exact (BitVar.follows_andNot hy hx).bind fun _ _ h => Follows.pure (.pos h)
      | neg hy => exact (BitVar.follows_nor hx hy).bind fun _ _ h => Follows.pure (.pos h)

/-- The value of a gate on three bits is the same where the follower computes
    it. -/
private theorem valueOf₃_alike (f : Bool → Bool → Bool → Bool) (ha : a.Alike m a')
    (hb : b.Alike m b') (hc : c.Alike m c') (hm : m.solves = true) :
    valueOf₃ f a b c = valueOf₃ f a' b' c' := by
  rw [valueOf₃, valueOf₃, ha.solved hm, hb.solved hm, hc.solved hm]

private theorem follows_chooseVar (ha : a.Alike m a') (hb : b.Alike m b') (hc : c.Alike m c') :
    Follows m m' (chooseVar (p := p) a b c) (chooseVar a' b' c') (Alike m) := by
  have hvalue := valueOf₃_alike choice ha hb hc
  refine (Follows.aux fun hm => ?_).row ?_ (fun _ _ _ => ha.lc 1) ?_ ?_
  · rw [hvalue hm]
  · intro x y _
    rw [hb.lc, hc.lc]
  · intro x y hxy
    rw [hxy.var, hc.lc]
  · intro x y hxy
    exact .pos ⟨hxy.var, hvalue⟩

/-- Choices between bits alike run alike. -/
theorem follows_choose (ha : a.Alike m a') (hb : b.Alike m b') (hc : c.Alike m c') :
    Follows m m' (choose (p := p) a b c) (choose a' b' c') (Alike m) :=
  folds_follows.choose_beside Alike.isVar ha hb hc follows_and (follows_chooseVar ha hb hc)

private theorem follows_majorityVar (ha : a.Alike m a') (hb : b.Alike m b')
    (hc : c.Alike m c') :
    Follows m m' (majorityVar (p := p) a b c) (majorityVar a' b' c') (Alike m) := by
  have hvalue := valueOf₃_alike most ha hb hc
  refine (Follows.aux fun hm => ?_).bind fun x y hxy => ?_
  · rw [hvalue hm]
  refine (follows_and hb hc).within.row ?_ (fun _ _ _ => ha.lc 1) ?_ ?_
  · intro bc bc' hbc
    rw [hbc.lc, hb.lc, hc.lc]
  · intro bc bc' hbc
    rw [hxy.var, hbc.lc]
  · intro bc bc' _
    exact .pos ⟨hxy.var, hvalue⟩

/-- Majorities of bits alike run alike. -/
theorem follows_majority (ha : a.Alike m a') (hb : b.Alike m b') (hc : c.Alike m c') :
    Follows m m' (majority (p := p) a b c) (majority a' b' c') (Alike m) :=
  folds_follows.majority_beside Alike.isVar ha hb hc follows_and
    fun _ _ _ _ => follows_majorityVar ha hb hc

omit [Mode.AsksLess m m'] in
/-- Two constants are compared at once, and where the leader succeeds so does
    the follower. -/
theorem follows_enforceEqual (ha : a.Alike m a') (hb : b.Alike m b') :
    Follows m m' (enforceEqual (p := p) a b) (enforceEqual a' b') fun _ _ => True := by
  have hlc := ha.lc (1 : Fp p)
  have hlc' := hb.lc (1 : Fp p)
  cases ha with
  | const u =>
      cases hb with
      | const v => exact Follows.ite (fun _ => Follows.pure trivial) fun _ => Follows.throw
      | pos _ | neg _ =>
          cases u with
          | false => exact Follows.enforce rfl rfl hlc'
          | true => exact Follows.enforce rfl rfl (congrArg (1 - ·) hlc')
  | pos _ | neg _ =>
      cases hb with
      | const v =>
          cases v with
          | false => exact Follows.enforce rfl rfl hlc
          | true => exact Follows.enforce rfl rfl (congrArg (1 - ·) hlc)
      | pos _ | neg _ => exact Follows.enforce rfl rfl (congrArg₂ (· - ·) hlc hlc')

end Follows

/-! ## Compiling -/

section Compiling

omit [Modulus p] in
/-- To compile is a judgement that folds, with no meaning to keep track of. -/
theorem folds_tidy : Folds (p := p) Meaning.nothing (fun _ _ => True)
    fun body _ => Tidy body fun _ => True where
  of_const _ := rfl
  const _ := trivial
  not _ := trivial
  give _ := .pure trivial
  negate h := h.map

variable (a b c : Bit)

theorem tidy_xor : Tidy (xor (p := p) a b) fun _ => True := by
  refine folds_tidy.xor (x := ()) (y := ()) trivial trivial fun ha hb => ?_
  cases a with
  | const v => exact absurd rfl (ha v)
  | pos x | neg x =>
      cases b with
      | const v => exact absurd rfl (hb v)
      | pos y | neg y => exact (BitVar.tidy_xor _ _).map

theorem tidy_and : Tidy (and (p := p) a b) fun _ => True := by
  refine folds_tidy.and (x := ()) (y := ()) trivial trivial fun ha hb => ?_
  cases a with
  | const v => exact absurd rfl (ha v)
  | pos x =>
      cases b with
      | const v => exact absurd rfl (hb v)
      | pos y => exact (BitVar.tidy_and _ _).map
      | neg y => exact (BitVar.tidy_andNot _ _).map
  | neg x =>
      cases b with
      | const v => exact absurd rfl (hb v)
      | pos y => exact (BitVar.tidy_andNot _ _).map
      | neg y => exact (BitVar.tidy_nor _ _).map

/-- A choice names its variable and its row. -/
theorem tidy_choose : Tidy (choose (p := p) a b c) fun _ => True := by
  refine folds_tidy.choose (x := ()) (y := ()) (o := ()) trivial trivial trivial
    (fun _ _ => tidy_and _ _) fun _ _ _ => ?_
  have hnames : Compiles ["ch", "ch computation"] (chooseVar (p := p) a b c) fun _ => True :=
    (Compiles.aux _ _).row fun _ _ => trivial
  exact hnames.tidy (by decide)

/-- A majority names its variable, the namespace of the conjunction, and its
    row. -/
theorem tidy_majority : Tidy (majority (p := p) a b c) fun _ => True := by
  refine folds_tidy.majority (x := ()) (y := ()) (o := ()) trivial trivial trivial
    (fun _ _ => tidy_and _ _) fun _ _ _ => ?_
  refine Compiles.tidy (N := ["maj", "b and c", "maj computation"]) ?_ (by decide)
  refine (Compiles.aux _ _).step fun maj _ => ?_
  refine (tidy_and _ _).within.step fun bc _ => ?_
  exact (Compiles.enforce _ _ _ _).step fun _ _ => Compiles.pure trivial

/-- Comparing a negated variable with the constant one enforces one row. -/
theorem tidy_enforceEqual_neg (x : BitVar) :
    Tidy (enforceEqual (p := p) (.neg x) (.const true)) fun _ => True :=
  (Compiles.enforce _ _ _ _).tidy (by decide)

end Compiling

end RankOne.Bit
