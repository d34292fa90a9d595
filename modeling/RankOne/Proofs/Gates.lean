import RankOne.Proofs.Numbers

/-!
# Gates — truth values under an assignment

    A bit is worth a field element, `b.val z`, and it *is* the truth value `v`
    when it is worth `Fp.ofBool v`.  Each gate forces a polynomial identity
    between what its operands and its result are worth.  The identities hold
    whatever the operands are worth, constants and negations included; on
    truth values they are the Boolean operations.
-/

namespace RankOne

open Build

variable {p : Nat} [Modulus p] {ε : Type}

namespace Fp

/-- Negation is subtraction from one. -/
theorem ofBool_not (x : Bool) : (ofBool (!x) : Fp p) = 1 - ofBool x := by
  cases x with
  | false => exact (sub_zero _).symm
  | true => exact (sub_self _).symm

/-- Exclusive or is a polynomial of degree two. -/
theorem ofBool_xor (x y : Bool) :
    (ofBool (x ^^ y) : Fp p) = ofBool x + ofBool y - 2 * ofBool x * ofBool y := by
  cases x <;> cases y <;> simp
  ring

/-- Conjunction is the product. -/
theorem ofBool_and (x y : Bool) : (ofBool (x && y) : Fp p) = ofBool x * ofBool y := by
  cases x <;> cases y <;> simp

/-- A choice interpolates between two values. -/
theorem ofBool_choice (x y c : Bool) :
    (ofBool (Bit.choice x y c) : Fp p) = ofBool x * (ofBool y - ofBool c) + ofBool c := by
  cases x <;> cases y <;> cases c <;> simp [Bit.choice]

/-- The majority is a polynomial of degree three. -/
theorem ofBool_most (x y c : Bool) :
    (ofBool (Bit.most x y c) : Fp p) = ofBool x * ofBool y + ofBool x * ofBool c
      + ofBool y * ofBool c - 2 * ofBool x * ofBool y * ofBool c := by
  cases x <;> cases y <;> cases c <;> simp [Bit.most]
  ring

/-- In a field the two truth values are worth different elements. -/
theorem ofBool_injective (hp : p.Prime) {x y : Bool} (h : (ofBool x : Fp p) = ofBool y) :
    x = y := by
  cases x <;> cases y
  · rfl
  · exact absurd h.symm (one_ne_zero hp)
  · exact absurd h (one_ne_zero hp)
  · rfl

end Fp

/-! ## What bits are worth -/

/-- The variable is worth a truth value that the run has computed. -/
def BitVar.Live (w : Witness p) (x : BitVar) (v : Bool) : Prop :=
  x.value = some v ∧ w.Knows x.lc (Fp.ofBool v)

/-- One variable, with the same value where the follower computes values. -/
structure BitVar.Alike (m : Mode) (x y : BitVar) : Prop where
  var : x.var = y.var
  solved : m.solves = true → x.value = y.value

namespace Bit

/-- The field element that a bit is worth. -/
def val (z : Variable → Fp p) (b : Bit) : Fp p := (b.lc (1 : Fp p)).eval z

/-- The bit is worth the truth value. -/
def Is (z : Variable → Fp p) (b : Bit) (v : Bool) : Prop := b.val z = Fp.ofBool v

/-- The bit has a value, and is worth it. -/
def Live (w : Witness p) (b : Bit) (v : Bool) : Prop :=
  b.value = some v ∧ ∀ z, w.Fits z → b.Is z v

/-- The same constant, or variables alike under the same sign. -/
inductive Alike (m : Mode) : Bit → Bit → Prop where
  | const (b : Bool) : Alike m (.const b) (.const b)
  | pos {x y : BitVar} (h : x.Alike m y) : Alike m (.pos x) (.pos y)
  | neg {x y : BitVar} (h : x.Alike m y) : Alike m (.neg x) (.neg y)

/-- The terms of a bit are worth the coefficient times what the bit is worth. -/
theorem eval_lc (z : Variable → Fp p) (c : Fp p) (b : Bit) : (b.lc c).eval z = c * b.val z := by
  cases b with
  | const v =>
      cases v with
      | false => exact (mul_zero c).symm
      | true => simp [val, lc]
  | pos x => simp [val, lc]
  | neg x =>
      simp only [val, lc, LinComb.eval_sub, LinComb.eval_const, LinComb.eval_single]
      ring

section Value

variable {z : Variable → Fp p}

/-- A constant is worth its truth value. -/
theorem val_const (one : z .one = 1) (b : Bool) : (const b).val z = Fp.ofBool b := by
  cases b with
  | false => rfl
  | true => simp [val, lc, one]

theorem val_pos (x : BitVar) : (pos x).val z = z x.var := by
  simp [val, lc]

/-- A negated variable is worth what is left to one. -/
theorem val_neg (one : z .one = 1) (x : BitVar) : (neg x).val z = 1 - z x.var := by
  simp [val, lc, one]

/-- The negation of a bit is worth what is left to one, whichever form it
    takes. -/
theorem val_not (one : z .one = 1) (b : Bit) : b.not.val z = 1 - b.val z := by
  cases b with
  | const v =>
      show (const !v).val z = 1 - (const v).val z
      rw [val_const one, val_const one, Fp.ofBool_not]
  | pos x =>
      show (neg x).val z = _
      rw [val_neg one, val_pos]
  | neg x =>
      show (pos x).val z = _
      rw [val_neg one, val_pos, sub_sub_cancel]

/-- A bit that is worth a truth value has a negation that is worth the other
    one. -/
theorem Is.not (one : z .one = 1) {b : Bit} {v : Bool} (h : b.Is z v) : b.not.Is z !v := by
  show b.not.val z = _
  rw [val_not one, Fp.ofBool_not, h]

end Value

/-- What a run has computed is not computed anew. -/
theorem Live.mono {w w' : Witness p} {b : Bit} {v : Bool} (h : w ≤ w') (hb : b.Live w v) :
    b.Live w' v := by
  refine ⟨hb.1, fun z hz => ?_⟩
  exact hb.2 z (hz.mono h)

theorem Live.const (w : Witness p) (b : Bool) : (Bit.const b).Live w b := by
  refine ⟨rfl, fun z hz => ?_⟩
  exact val_const hz.one b

omit [Modulus p] in
/-- The negation of a bit is known where the bit is. -/
theorem not_value (b : Bit) : b.not.value = b.value.map (!·) := by
  cases b with
  | const c => rfl
  | pos x => rfl
  | neg x =>
      -- two negations of a value that may be missing
      show x.value = (x.value.map (!·)).map (!·)
      cases x.value with
      | none => rfl
      | some v => exact congrArg some (Bool.not_not v).symm

omit [Modulus p] in
theorem value_not {b : Bit} {v : Bool} (h : b.value = some v) : b.not.value = some !v := by
  rw [not_value, h]
  rfl

/-- The negation of a bit with a value has the other value. -/
theorem Live.not {w : Witness p} {b : Bit} {v : Bool} (h : b.Live w v) : b.not.Live w !v := by
  refine ⟨value_not h.1, fun z hz => ?_⟩
  exact (h.2 z hz).not hz.one

/-- A bit that is a variable is as live as the variable. -/
theorem live_pos {w : Witness p} {x : BitVar} {v : Bool} : (pos x).Live w v ↔ x.Live w v := by
  have h : ∀ z : Variable → Fp p, (pos x).Is z v ↔ x.lc.eval z = Fp.ofBool v := by
    intro z
    show (pos x).val z = _ ↔ _
    rw [val_pos, BitVar.lc, LinComb.eval_ofVar]
  constructor
  · rintro ⟨hvalue, hworth⟩
    exact ⟨hvalue, fun z hz => (h z).mp (hworth z hz)⟩
  · rintro ⟨hvalue, hworth⟩
    exact ⟨hvalue, fun z hz => (h z).mpr (hworth z hz)⟩

/-- A negated variable is live with a value where the variable is with the other
    one. -/
theorem live_neg {w : Witness p} {x : BitVar} {v : Bool} : (neg x).Live w v ↔ x.Live w !v := by
  constructor
  · intro h
    exact live_pos.mp h.not
  · intro h
    have h' := (live_pos.mpr h).not
    rw [Bool.not_not] at h'
    exact h'

theorem alike_refl (m : Mode) : (b : Bit) → b.Alike m b
  | .const b => .const b
  | .pos _ => .pos ⟨rfl, fun _ => rfl⟩
  | .neg _ => .neg ⟨rfl, fun _ => rfl⟩

/-- Negations of bits alike are alike. -/
theorem Alike.not {m : Mode} {a b : Bit} (h : a.Alike m b) : a.not.Alike m b.not := by
  cases h with
  | const b => exact .const _
  | pos h => exact .neg h
  | neg h => exact .pos h

/-- Bits alike have the same terms, since these mention variables only. -/
theorem Alike.lc {m : Mode} {a b : Bit} (h : a.Alike m b) (c : Fp p) : a.lc c = b.lc c := by
  cases h with
  | const b => rfl
  | pos h => rw [Bit.lc, Bit.lc, h.var]
  | neg h => rw [Bit.lc, Bit.lc, h.var]

/-- Where the follower computes values, bits alike have the same ones. -/
theorem Alike.solved {m : Mode} {a b : Bit} (h : a.Alike m b) (hm : m.solves = true) :
    a.value = b.value := by
  cases h with
  | const b => rfl
  | pos h => exact h.solved hm
  | neg h => exact congrArg (Option.map (!·)) (h.solved hm)

/-- So there they are equal. -/
theorem Alike.eq {m : Mode} {a b : Bit} (h : a.Alike m b) (hm : m.solves = true) : a = b := by
  have hvar : ∀ x y : BitVar, x.Alike m y → x = y := by
    rintro ⟨x, v⟩ ⟨y, u⟩ h
    obtain rfl : x = y := h.var
    obtain rfl : v = u := h.solved hm
    rfl
  cases h with
  | const b => rfl
  | pos h => rw [hvar _ _ h]
  | neg h => rw [hvar _ _ h]

end Bit

namespace BitVar

theorem Alike.lc {m : Mode} {x y : BitVar} (h : x.Alike m y) : (x.lc : LinComb p) = y.lc :=
  congrArg LinComb.ofVar h.var

/-! ## Gates on variables -/

section Forces

variable {z : Variable → Fp p} (one : z .one = 1)

/-- The row `(1 - x) * x = 0` has two solutions in a field. -/
theorem forces_alloc (hp : p.Prime) (one : z .one = 1) (value : Option Bool) :
    Forces z (alloc (p := p) value) fun x => ∃ v, (Bit.pos x).Is z v := by
  refine (Forces.aux _ _).row fun x _ hrow => ?_
  simp only [LinComb.eval_sub, LinComb.eval_one, LinComb.eval_ofVar, LinComb.eval_zero, one]
    at hrow
  rcases Fp.eq_zero_or_one_of_mul_self hp hrow with h | h
  · exact ⟨false, (Bit.val_pos _).trans h⟩
  · exact ⟨true, (Bit.val_pos _).trans h⟩

/-- The result of a gate is not constrained before its row. -/
private theorem forces_result (name : String) (value : Option Bool) :
    Forces z (result (p := p) name value) fun _ => True := by
  refine (Forces.aux name _).bind fun _ => Forces.pure ?_
  exact id

/-- The row `2a * b = a + b - r`, solved for the result. -/
theorem forces_xor (a b : BitVar) : Forces z (xor (p := p) a b) fun r =>
    z r.var = z a.var + z b.var - 2 * z a.var * z b.var := by
  refine (forces_result _ _).row fun r _ hrow => ?_
  simp only [lc, LinComb.eval_add, LinComb.eval_sub, LinComb.eval_ofVar] at hrow
  linear_combination hrow

/-- The row of a conjunction is the product. -/
theorem forces_and (a b : BitVar) : Forces z (and (p := p) a b) fun r =>
    z r.var = z a.var * z b.var := by
  refine (forces_result _ _).row fun r _ hrow => ?_
  simp only [lc, LinComb.eval_ofVar] at hrow
  exact hrow.symm

/-- One operand is taken from one. -/
theorem forces_andNot (one : z .one = 1) (a b : BitVar) :
    Forces z (andNot (p := p) a b) fun r => z r.var = z a.var * (1 - z b.var) := by
  refine (forces_result _ _).row fun r _ hrow => ?_
  simp only [lc, LinComb.eval_sub, LinComb.eval_one, LinComb.eval_ofVar, one] at hrow
  exact hrow.symm

/-- Both operands are taken from one. -/
theorem forces_nor (one : z .one = 1) (a b : BitVar) :
    Forces z (nor (p := p) a b) fun r => z r.var = (1 - z a.var) * (1 - z b.var) := by
  refine (forces_result _ _).row fun r _ hrow => ?_
  simp only [lc, LinComb.eval_sub, LinComb.eval_one, LinComb.eval_ofVar, one] at hrow
  exact hrow.symm

end Forces

section Honest

variable {w : Witness p}

theorem Live.mono {w' : Witness p} {x : BitVar} {v : Bool} (h : w ≤ w') (hx : x.Live w v) :
    x.Live w' v :=
  ⟨hx.1, hx.2.mono h⟩

/-- Every assignment that fits the run gives the variable its truth value. -/
theorem Live.eval {x : BitVar} {v : Bool} (h : x.Live w v) {z : Variable → Fp p}
    (hz : w.Fits z) : z x.var = Fp.ofBool v := by
  rw [← h.2 z hz, lc, LinComb.eval_ofVar]

/-- Either truth value satisfies the row that a bit is given. -/
theorem honest_alloc (v : Bool) :
    Honest w (alloc (p := p) (some v)) fun w' x => x.Live w' v := by
  refine Honest.aux.row ?_ ?_
  · intro w' x z _ (hx : x.Live w' (Fp.ofBool v)) hz
    simp only [LinComb.eval_sub, LinComb.eval_one, LinComb.eval_ofVar, LinComb.eval_zero, hz.one,
      hx.eval hz]
    cases v with
    | false => exact mul_zero _
    | true => simp
  · intro w' w'' x hle hx
    exact ⟨rfl, (hx.mono hle).2⟩

/-- A gate on variables: its result is allocated, and one row ties it to the
    operands. -/
theorem honest_row {name row : String} {a b : LinComb p} {c : BitVar → LinComb p} {v : Bool}
    (h : ∀ (w' : Witness p) (r : BitVar) (z : Variable → Fp p), w ≤ w' → r.Live w' v → w'.Fits z →
      a.eval z * b.eval z = (c r).eval z) :
    Honest w (do let r ← result name (some v); enforce row a b (c r); return r)
      fun w' r => r.Live w' v := by
  -- the bit is kept beside the value that was computed for it
  have hresult : Honest w (result (p := p) name (some v)) fun w' r => r.Live w' v := by
    refine Honest.aux.bind fun w₁ x _ (hx : x.Live w₁ (Fp.ofBool v)) => Honest.pure ?_
    intro w₂ hle
    refine ⟨?_, (hx.mono hle).2⟩
    show (x.value.bind fun _ => some v) = some v
    rw [hx.1]
    rfl
  refine hresult.row h ?_
  intro w' w'' r hle hr
  exact hr.mono hle

/-- The gate's value is computed where both operands have one. -/
private theorem valueOf_live {f : Bool → Bool → Bool} {a b : BitVar} {x y : Bool}
    (ha : a.Live w x) (hb : b.Live w y) : valueOf f a b = some (f x y) := by
  rw [valueOf, ha.1, hb.1]
  rfl

/-- The exclusive or of the values satisfies the row. -/
theorem honest_xor {a b : BitVar} {x y : Bool} (ha : a.Live w x) (hb : b.Live w y) :
    Honest w (xor (p := p) a b) fun w' r => r.Live w' (x ^^ y) := by
  rw [xor, valueOf_live ha hb]
  refine honest_row fun w' r z hle hr hz => ?_
  simp only [lc, LinComb.eval_add, LinComb.eval_sub, LinComb.eval_ofVar, hr.eval hz,
    (ha.mono hle).eval hz, (hb.mono hle).eval hz, Fp.ofBool_xor]
  ring

/-- Their conjunction satisfies the row. -/
theorem honest_and {a b : BitVar} {x y : Bool} (ha : a.Live w x) (hb : b.Live w y) :
    Honest w (and (p := p) a b) fun w' r => r.Live w' (x && y) := by
  rw [and, valueOf_live ha hb]
  refine honest_row fun w' r z hle hr hz => ?_
  simp only [lc, LinComb.eval_ofVar, hr.eval hz, (ha.mono hle).eval hz, (hb.mono hle).eval hz,
    Fp.ofBool_and]

/-- The first value and not the second one satisfies the row. -/
theorem honest_andNot {a b : BitVar} {x y : Bool} (ha : a.Live w x) (hb : b.Live w y) :
    Honest w (andNot (p := p) a b) fun w' r => r.Live w' (x && !y) := by
  rw [andNot, valueOf_live ha hb]
  refine honest_row fun w' r z hle hr hz => ?_
  simp only [lc, LinComb.eval_sub, LinComb.eval_one, LinComb.eval_ofVar, hz.one, hr.eval hz,
    (ha.mono hle).eval hz, (hb.mono hle).eval hz, Fp.ofBool_and, Fp.ofBool_not]

/-- That neither value is set satisfies the row. -/
theorem honest_nor {a b : BitVar} {x y : Bool} (ha : a.Live w x) (hb : b.Live w y) :
    Honest w (nor (p := p) a b) fun w' r => r.Live w' (!x && !y) := by
  rw [nor, valueOf_live ha hb]
  refine honest_row fun w' r z hle hr hz => ?_
  simp only [lc, LinComb.eval_sub, LinComb.eval_one, LinComb.eval_ofVar, hz.one, hr.eval hz,
    (ha.mono hle).eval hz, (hb.mono hle).eval hz, Fp.ofBool_and, Fp.ofBool_not]

end Honest

section Follows

variable {m m' : Mode} [Mode.AsksLess m m']

/-- A bit is allocated alike for values that are the same where the follower
    looks at them. -/
theorem follows_alloc {u v : Option Bool} (h : m.solves = true → u = v) :
    Follows m m' (alloc (p := p) u) (alloc (p := p) v) (BitVar.Alike m) := by
  have hvalue : m.solves = true → u.map Fp.ofBool = v.map (Fp.ofBool (p := p)) := by
    intro hm
    rw [h hm]
  refine (Follows.aux hvalue).row ?_ ?_ (fun _ _ _ => rfl) ?_
  · intro x y hxy
    rw [hxy.var]
  · intro x y hxy
    exact hxy.lc
  · intro x y hxy
    exact ⟨hxy.var, h⟩

/-- Gates on variables alike run alike: the rows mention the same variables. -/
theorem follows_row {name row : String} {u v : Option Bool} {a a' b b' : LinComb p}
    {c c' : BitVar → LinComb p} (h : m.solves = true → u = v) (ha : a = a') (hb : b = b')
    (hc : ∀ r r' : BitVar, r.Alike m r' → c r = c' r') :
    Follows m m' (do let r ← result name u; enforce row a b (c r); return r)
      (do let r ← result name v; enforce row a' b' (c' r); return r) (BitVar.Alike m) := by
  have hresult : Follows m m' (result (p := p) name u) (result (p := p) name v)
      (BitVar.Alike m) := by
    refine (Follows.aux fun hm => ?_).bind fun x y hxy => Follows.pure ⟨hxy.var, fun hm => ?_⟩
    · rw [h hm]
    · show (x.value.bind fun _ => u) = (y.value.bind fun _ => v)
      rw [hxy.solved hm, h hm]
  exact hresult.row (fun _ _ _ => ha) (fun _ _ _ => hb) hc fun _ _ hr => hr

variable {a a' b b' : BitVar} (ha : a.Alike m a') (hb : b.Alike m b')

include ha hb

/-- The gate's value is the same where the follower computes it. -/
private theorem valueOf_alike (f : Bool → Bool → Bool) (h : m.solves = true) :
    valueOf f a b = valueOf f a' b' := by
  rw [valueOf, valueOf, ha.solved h, hb.solved h]

/-- Exclusive or runs alike on variables alike. -/
theorem follows_xor : Follows m m' (xor (p := p) a b) (xor a' b') (BitVar.Alike m) := by
  have hvalue := valueOf_alike ha hb Bool.xor
  refine follows_row hvalue ?_ hb.lc fun r r' hr => ?_
  · rw [ha.lc]
  · rw [ha.lc, hb.lc, hr.lc]

theorem follows_and : Follows m m' (and (p := p) a b) (and a' b') (BitVar.Alike m) := by
  have hvalue := valueOf_alike ha hb Bool.and
  refine follows_row hvalue ha.lc hb.lc fun r r' hr => ?_
  exact hr.lc

/-- The negated operand is taken from one in both runs. -/
theorem follows_andNot : Follows m m' (andNot (p := p) a b) (andNot a' b') (BitVar.Alike m) := by
  have hvalue := valueOf_alike ha hb fun x y => x && !y
  refine follows_row hvalue ha.lc ?_ fun r r' hr => ?_
  · rw [hb.lc]
  · exact hr.lc

/-- Both operands are taken from one in both runs. -/
theorem follows_nor : Follows m m' (nor (p := p) a b) (nor a' b') (BitVar.Alike m) := by
  have hvalue := valueOf_alike ha hb fun x y => !x && !y
  refine follows_row hvalue ?_ ?_ fun r r' hr => ?_
  · rw [ha.lc]
  · rw [hb.lc]
  · exact hr.lc

end Follows

section Compiling

variable (a b : BitVar) (value : Option Bool)

/-- A bit names its variable and its row. -/
theorem tidy_alloc : Tidy (alloc (p := p) value) fun _ => True := by
  have hnames : Compiles ["boolean", "boolean constraint"] (alloc (p := p) value) fun _ => True :=
    (Compiles.aux _ _).row fun _ _ => trivial
  exact hnames.tidy (by decide)

/-- A gate on variables gives the name of its result and the name of its row. -/
theorem compiles_row (name row : String) (l m : LinComb p) (c : BitVar → LinComb p) :
    Compiles [name, row] (do let r ← result name value; enforce row l m (c r); return r)
      fun _ => True := by
  have hresult : Compiles [name] (result (p := p) name value) fun _ => True :=
    (Compiles.aux name _).bind fun _ _ => Compiles.pure trivial
  exact hresult.row fun _ _ => trivial

theorem tidy_xor : Tidy (xor (p := p) a b) fun _ => True := by
  have hnames : Compiles ["xor result", "xor constraint"] (xor (p := p) a b) fun _ => True :=
    compiles_row _ _ _ _ _ _
  exact hnames.tidy (by decide)

theorem tidy_and : Tidy (and (p := p) a b) fun _ => True := by
  have hnames : Compiles ["and result", "and constraint"] (and (p := p) a b) fun _ => True :=
    compiles_row _ _ _ _ _ _
  exact hnames.tidy (by decide)

theorem tidy_andNot : Tidy (andNot (p := p) a b) fun _ => True := by
  have hnames : Compiles ["and not result", "and not constraint"] (andNot (p := p) a b)
      fun _ => True := compiles_row _ _ _ _ _ _
  exact hnames.tidy (by decide)

theorem tidy_nor : Tidy (nor (p := p) a b) fun _ => True := by
  have hnames : Compiles ["nor result", "nor constraint"] (nor (p := p) a b) fun _ => True :=
    compiles_row _ _ _ _ _ _
  exact hnames.tidy (by decide)

end Compiling

end BitVar

end RankOne
