import RankOne.Proofs.Decomposition
import RankOne.Proofs.Pairing

/-!
# Satisfaction — when the rows of a circuit can be solved

    The rows that a circuit adds mention variables that were there before it
    and variables of its own.  For given values of the former they can be
    solved when some values of the latter satisfy them.  What satisfied rows
    force and what an honest run asks for are two halves of one condition:
    where they are the same, it is the condition under which the rows can be
    solved.

    A solving run computes one such choice, and it may compute values also
    where none satisfies the rows.  `body.Answers Q` says that it always gives
    a result, so that whether its values satisfy the rows is all that is left
    to ask.

    `Decides s z x body P F R` puts together what has to be shown of a circuit
    for that; what follows for its rows and its values is derived once.
-/

namespace RankOne

open Build

variable {p : Nat}

namespace System

instance (s : System p) : DecidablePred s.Allocated
  | .input i => inferInstanceAs (Decidable (i ≤ s.numInputs))
  | .aux i => inferInstanceAs (Decidable (i < s.numAux))

/-- The second assignment keeps the values that the first one gives to the
    variables of the system. -/
def Agrees (s : System p) (z z' : Variable → Fp p) : Prop := ∀ v, s.Allocated v → z' v = z v

theorem Agrees.one [Modulus p] {s : System p} {z z' : Variable → Fp p} (h : s.Agrees z z')
    (one : z .one = 1) : z' .one = 1 :=
  (h .one (Nat.zero_le _)).trans one

/-- The values that were computed fit all assignments that keep them. -/
theorem Paired.fits_of_agrees [Modulus p] {s u : System p} (h : s.Paired u)
    {z z' : Variable → Fp p} (hz : u.witness.Fits z) (hz' : s.Agrees z z') :
    u.witness.Fits z' where
  one := hz'.one hz.one
  aux i v hv := by
    have hi : i < u.aux.size := (Array.getElem?_eq_some_iff.mp hv).1
    rw [h.balanced.aux, h.numAux] at hi
    exact (hz' (.aux i) hi).trans (hz.aux i v hv)
  input i v hv := by
    have hi : i < u.inputs.size := (Array.getElem?_eq_some_iff.mp hv).1
    rw [h.balanced.inputs, h.numInputs] at hi
    exact (hz' (.input i) (Nat.le_of_lt_succ hi)).trans (hz.input i v hv)

/-- Assignments that fit the same values agree on the variables that have
    them. -/
theorem Paired.agrees [Modulus p] {s u : System p} (h : s.Paired u) {z z' : Variable → Fp p}
    (hz : u.witness.Fits z) (hz' : u.witness.Fits z') : s.Agrees z z' :=
  fun _ hv => (h.value_eq hz' hv).symm.trans (h.value_eq hz hv)

/-- Some values of the later variables satisfy the rows that `s'` has and `s`
    does not. -/
def SolvableSince [Modulus p] (s' s : System p) (z : Variable → Fp p) : Prop :=
  ∃ z', s.Agrees z z' ∧ s'.HoldsSince s z'

/-- Two runs of one circuit stay paired, and the solving one keeps the values
    that it began with. -/
theorem Paired.kept_above (w : Witness p) :
    Kept .compiling .solving fun s u : System p => s.Paired u ∧ w ≤ u.witness where
  numAux h := kept.numAux h.1
  numInputs h := kept.numInputs h.1
  rename h f := ⟨kept.rename h.1 f, h.2⟩
  addRow h name a b c := ⟨kept.addRow h.1 name a b c, h.2⟩
  growAux {s u} h v x huv hx := by
    refine ⟨kept.growAux h.1 huv hx, h.2.trans ?_⟩
    rcases growAux_cases .solving x u with hgrow | ⟨y, hgrow⟩
    · rw [hgrow]
      exact witness_mono (le_countAux u)
    · rw [hgrow]
      exact witness_mono ((le_countAux u).trans (le_pushAux y _))
  growInput {s u} h v x huv hx := by
    refine ⟨kept.growInput h.1 huv hx, h.2.trans ?_⟩
    rcases growInput_cases .solving x u with hgrow | ⟨y, hgrow⟩
    · rw [hgrow]
      exact witness_mono (le_countInput u)
    · rw [hgrow]
      exact witness_mono ((le_countInput u).trans (le_pushInput y _))

end System

namespace Build

variable {ε α β : Type}

/-! ## Solving runs that always give a result -/

/-- Every solving run gives a result with `Q`. -/
def Answers (body : Build p ε α) (Q : α → Prop) : Prop :=
  ∀ u : System p, ∃ a u', body .solving u = .ok a u' ∧ Q a

namespace Answers

theorem pure {a : α} {Q : α → Prop} (h : Q a) : Answers (pure a : Build p ε α) Q :=
  fun u => ⟨a, u, rfl, h⟩

theorem bind {x : Build p ε α} {f : α → Build p ε β} {Q : α → Prop} {R : β → Prop}
    (hx : Answers x Q) (hf : ∀ a, Q a → Answers (f a) R) : Answers (x >>= f) R := by
  intro u
  obtain ⟨a, u₁, hrun₁, hQ⟩ := hx u
  obtain ⟨b, u₂, hrun₂, hR⟩ := hf a hQ u₁
  exact ⟨b, u₂, bind_eq_ok.mpr ⟨a, u₁, hrun₁, hrun₂⟩, hR⟩

theorem within {name : String} {x : Build p ε α} {Q : α → Prop} (hx : Answers x Q) :
    Answers (within name x) Q := by
  intro u
  obtain ⟨a, u', hrun, hQ⟩ := hx (recording .solving (·.enter name) u)
  exact ⟨a, _, within_eq_ok.mpr ⟨u', hrun, rfl⟩, hQ⟩

theorem enforce (name : String) (a b c : LinComb p) :
    Answers (enforce name a b c : Build p ε Unit) fun _ => True :=
  fun u => ⟨(), u, rfl, trivial⟩

/-- A circuit, one row, whatever becomes of it, and what is made of the
    result. -/
theorem row {name : String} {x : Build p ε α} {a b c : α → LinComb p} {g : α → β}
    {Q : α → Prop} {R : β → Prop} (hx : Answers x Q) (hR : ∀ r, Q r → R (g r)) :
    Answers (do let r ← x; Build.enforce name (a r) (b r) (c r); return g r) R := by
  refine hx.bind fun r hr => ?_
  refine (Answers.enforce name (a r) (b r) (c r)).bind fun _ _ => pure ?_
  exact hR r hr

/-- A variable with a value is never refused. -/
theorem aux (name : String) (v : Fp p) :
    Answers (aux name (some v)) fun x => x.value = some v :=
  fun _ => ⟨_, _, aux_eq_ok.mpr ⟨fun _ => nofun, rfl, rfl⟩, rfl⟩

private theorem tabulateTo {m : Nat} {body : Fin m → Build p ε α} {Q : Fin m → α → Prop}
    (h : ∀ i, Answers (body i) (Q i)) (n : Nat) (le : n ≤ m) :
    Answers (tabulateTo body n le) fun v =>
      ∀ i (hi : i < n), Q ⟨i, Nat.lt_of_lt_of_le hi le⟩ v[i] := by
  induction n with
  | zero => exact pure fun i hi => absurd hi (Nat.not_lt_zero i)
  | succ n ih =>
      refine (ih (by omega)).bind fun v hv => (h ⟨n, le⟩).bind fun a ha => pure ?_
      exact forall_push le hv ha

theorem tabulate {n : Nat} {body : Fin n → Build p ε α} {Q : Fin n → α → Prop}
    (h : ∀ i, Answers (body i) (Q i)) :
    Answers (tabulate body) fun v => ∀ i (hi : i < n), Q ⟨i, hi⟩ v[i] :=
  tabulateTo h n (Nat.le_refl n)

end Answers

/-! ## Two runs beside each other -/

variable [Modulus p]

section Beside

variable {x : Build p ε α} {body : Build p ε β} {s s' u : System p} {a : α}
  {z : Variable → Fp p} (hrun : x .compiling s = .ok a s') (hu : s.Paired u)
  (hz : u.witness.Fits z)

include hrun hu hz

/-- A solving run that always answers does so beside a compiling run, and keeps
    the values that it began with. -/
theorem Answers.beside {Q : β → Prop} {R : α → β → Prop} (hbody : Answers body Q)
    (hx : Follows .compiling .solving x body R) :
    ∃ b u', body .solving u = .ok b u' ∧ s'.Paired u' ∧ s.Agrees z u'.witness.value ∧
      R a b ∧ Q b := by
  obtain ⟨b, u', hrun', hQ⟩ := hbody u
  obtain ⟨a', s'', hcompile, ⟨hpaired, hle⟩, hab⟩ :=
    hx _ (System.Paired.kept_above u.witness) s u u' b ⟨hu, le_rfl⟩ hrun'
  obtain ⟨rfl, rfl⟩ := EStateM.Result.ok.inj (hrun.symm.trans hcompile)
  exact ⟨b, u', hrun', hpaired, fun v hv => hu.later_value_eq hz hle hv, hab, hQ⟩

/-- The values of an honest run satisfy the rows of the compiling run beside
    it. -/
theorem Honest.beside {Q : Witness p → β → Prop} {R : α → β → Prop} {R' : β → β → Prop}
    (hbody : Honest u.witness body Q) (hx : Follows .compiling .tracing x body R)
    (hself : Follows .solving .tracing body body R') :
    ∃ b u', body .solving u = .ok b u' ∧ s.Agrees z u'.witness.value ∧
      s'.HoldsSince s u'.witness.value := by
  obtain ⟨a', s'', b, u', c, hcompile, hrun', _, hle, _, hrows, _⟩ := hbody.paired hx hself hu
  obtain ⟨rfl, rfl⟩ := EStateM.Result.ok.inj (hrun.symm.trans hcompile)
  exact ⟨b, u', hrun', fun v hv => hu.later_value_eq hz hle hv, hrows _ (hu.fits_value hz hle)⟩

/-- The values of a solving run satisfy the rows exactly under the condition
    that the rows force and that an honest run asks for. -/
theorem holdsSince_solved_iff {P : Prop} {Q : Witness p → β → Prop} {R : α → β → Prop}
    {R' : β → β → Prop} (hforces : ∀ z', s.Agrees z z' → Forces z' x fun _ => P)
    (hbody : P → Honest u.witness body Q) (hx : Follows .compiling .tracing x body R)
    (hself : Follows .solving .tracing body body R') {b : β} {u' : System p}
    (hrun' : body .solving u = .ok b u') (hvalues : s.Agrees z u'.witness.value) :
    s'.HoldsSince s u'.witness.value ↔ P := by
  constructor
  · intro h
    exact (hforces _ hvalues .compiling s s' a rfl hrun).2 h
  · intro hP
    obtain ⟨b', u'', hrun'', _, hrows⟩ := (hbody hP).beside hrun hu hz hx hself
    obtain ⟨rfl, rfl⟩ := EStateM.Result.ok.inj (hrun'.symm.trans hrun'')
    exact hrows

/-- The rows can be solved exactly under the condition that they force and that
    an honest run asks for. -/
theorem solvableSince_iff {P : Prop} {Q : Witness p → β → Prop} {R : α → β → Prop}
    {R' : β → β → Prop} (hforces : ∀ z', s.Agrees z z' → Forces z' x fun _ => P)
    (hbody : P → Honest u.witness body Q) (hx : Follows .compiling .tracing x body R)
    (hself : Follows .solving .tracing body body R') : s'.SolvableSince s z ↔ P := by
  constructor
  · rintro ⟨z', hz', hrows⟩
    exact (hforces z' hz' .compiling s s' a rfl hrun).2 hrows
  · intro hP
    obtain ⟨_, u', _, hvalues, hrows⟩ := (hbody hP).beside hrun hu hz hx hself
    exact ⟨u'.witness.value, hvalues, hrows⟩

end Beside

/-! ## Conditions that are decided by the rows -/

section Decides

variable {s s' : System p} {z : Variable → Fp p} {x : Build p ε α} {body : Build p ε β} {a : α}
  {P : Prop} {F : (Variable → Fp p) → α → Prop} {R : α → β → Prop}

/-- What is shown of a circuit `x`, and of the same circuit `body` with the
    values that `z` gives its operands: the rows force `P` and make `F` of the
    result, `P` is all that an honest run asks for, and the first one follows
    the second. -/
structure Decides (s : System p) (z : Variable → Fp p) (x : Build p ε α) (body : Build p ε β)
    (P : Prop) (F : (Variable → Fp p) → α → Prop) (R : α → β → Prop) : Prop where
  forces : ∀ z', s.Agrees z z' → Forces z' x fun a => P ∧ F z' a
  honest : ∀ u : System p, s.Paired u → u.witness.Fits z → P →
    Honest u.witness body fun _ _ => True
  shape : ∀ {m' : Mode} [Mode.AsksLess .compiling m'], Follows .compiling m' x body R
  self : Follows .solving .tracing body body fun _ _ => True

namespace Decides

variable (h : Decides s z x body P F R)

include h

/-- In every assignment that satisfies the rows the result is as it should. -/
theorem forced (hrun : x .compiling s = .ok a s') {z' : Variable → Fp p} (hz' : s.Agrees z z')
    (hrows : s'.HoldsSince s z') : F z' a :=
  ((h.forces z' hz' .compiling s s' a rfl hrun).2 hrows).2

variable (hrun : x .compiling s = .ok a s')

include hrun

theorem solvableSince_iff (one : z .one = 1) : s'.SolvableSince s z ↔ P :=
  Build.solvableSince_iff hrun (s.paired_valued z) (s.fits_valued one)
    (fun z' hz' => (h.forces z' hz').mono fun _ => And.left)
    (h.honest _ (s.paired_valued z) (s.fits_valued one)) h.shape h.self

/-- A solving run keeps the values that it began with, and satisfies the rows
    wherever that is possible. -/
theorem solved {K : β → Prop} (hbody : Answers body K) {u : System p} (hu : s.Paired u)
    (hz : u.witness.Fits z) :
    ∃ b u', body .solving u = .ok b u' ∧ s'.Paired u' ∧ s.Agrees z u'.witness.value ∧
      (s'.HoldsSince s u'.witness.value ↔ P) ∧ R a b ∧ K b := by
  obtain ⟨b, u', hrun', hpaired, hvalues, hab, hb⟩ := hbody.beside hrun hu hz h.shape
  have hholds := holdsSince_solved_iff hrun hu hz
    (fun z' hz' => (h.forces z' hz').mono fun _ => And.left) (h.honest u hu hz) h.shape h.self
    hrun' hvalues
  exact ⟨b, u', hrun', hpaired, hvalues, hholds, hab, hb⟩

end Decides

end Decides

end Build

/-! ## Digits -/

section Digits

variable [Modulus p]

theorem BitVar.answers_alloc (v : Bool) :
    Answers (alloc (p := p) (some v)) fun x => x.value = some v :=
  (Answers.aux _ _).row fun _ _ => rfl

/-- A value is split whatever it is; only too many digits are refused. -/
theorem LinNum.answers_toBits {x : LinNum p} {v : Fp p} {n : Nat} (hx : x.value = some v)
    (hn : n ≤ Fp.capacity p) :
    Answers (x.toBits n) fun bits => ∀ i (hi : i < n), bits[i].value = some (v.val.testBit i) := by
  rw [toBits, if_neg (not_lt.mpr hn), hx]
  have hdigits : Answers (BitVar.allocDigits (some v) n) fun digits =>
      ∀ i (hi : i < n), digits[i].value = some (v.val.testBit i) :=
    Answers.tabulate (Q := fun i (x : BitVar) => x.value = some (v.val.testBit i))
      fun i => (BitVar.answers_alloc (v.val.testBit i)).within
  refine hdigits.row fun digits h i hi => ?_
  rw [Vector.getElem_map]
  exact h i hi

end Digits

/-! ## Operands that are there -/

namespace Num

/-- A variable without a value and the same variable with one. -/
theorem alike_unknown (v : Variable) (x : Option (Fp p)) : Alike .compiling ⟨v, none⟩ ⟨v, x⟩ :=
  ⟨rfl, Or.inl rfl, Bool.false_ne_true.elim⟩

theorem alike_refl (m : Mode) (x : Num p) : x.Alike m x := ⟨rfl, Or.inr rfl, fun _ => rfl⟩

end Num

/-- A system with the given number of private values and nothing else. -/
def System.ofCount [Modulus p] (k : Nat) : System p := { System.start with numAux := k }

/-- The assignment that gives the first private values in order. -/
def Variable.assign [Modulus p] (values : List Nat) : Variable → Fp p
  | .input _ => 1
  | .aux i => Fp.ofNat (values.getD i 0)

end RankOne
