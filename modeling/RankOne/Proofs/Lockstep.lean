import RankOne.Proofs.Words

/-!
# Lockstep — compiling runs that differ in values only

    A compiling run looks at no value, but what was allocated with one may
    still carry it, and a run may fail.  `Lockstep T x y R` says that the
    values make no difference: the compiling runs of `x` and `y` both give a
    result, or both stop with the same error; the results are related by `R`,
    and what the runs leave is related by `T`, whether they fail or not.

    A circuit that always compiles is in lockstep when it follows
    (`Lockstep.of_follows`), so that only the places where a circuit can fail
    are looked at again.  Circuits that take numbers and give numbers need not
    be looked at: of the same numbers they are the same circuit.
-/

namespace RankOne.Build

variable {p : Nat} {σ ε ε' α α' β β' : Type}

/-- Two outcomes of one kind: related results, or the same error. -/
inductive Alongside (T : σ → σ → Prop) (R : α → β → Prop) :
    EStateM.Result ε σ α → EStateM.Result ε σ β → Prop where
  | ok {a : α} {b : β} {s s' : σ} (hs : T s s') (hab : R a b) :
      Alongside T R (.ok a s) (.ok b s')
  | error {e : ε} {s s' : σ} (hs : T s s') : Alongside T R (.error e s) (.error e s')

/-- Runs alongside one another both succeed or both fail. -/
theorem Alongside.ok_or_error {T : σ → σ → Prop} {R : α → β → Prop}
    {x : EStateM.Result ε σ α} {y : EStateM.Result ε σ β} (h : Alongside T R x y) :
    (∃ a s b s', x = .ok a s ∧ y = .ok b s' ∧ T s s' ∧ R a b) ∨
      ∃ e s s', x = .error e s ∧ y = .error e s' ∧ T s s' := by
  cases h with
  | ok hs hab => exact Or.inl ⟨_, _, _, _, rfl, rfl, hs, hab⟩
  | error hs => exact Or.inr ⟨_, _, _, rfl, rfl, hs⟩

/-- The state that a run leaves, whether it fails or not. -/
def stateOf : EStateM.Result ε σ α → σ
  | .ok _ s => s
  | .error _ s => s

/-- Either way the states that they leave are related. -/
theorem Alongside.stateOf {T : σ → σ → Prop} {R : α → β → Prop} {x : EStateM.Result ε σ α}
    {y : EStateM.Result ε σ β} (h : Alongside T R x y) : T (Build.stateOf x) (Build.stateOf y) := by
  cases h with
  | ok hs _ => exact hs
  | error hs => exact hs

/-- Runs in one mode, from states that are related, come to outcomes of one
    kind. -/
def InStep (mode : Mode) (T : σ → σ → Prop) (x : ReaderT Mode (EStateM ε σ) α)
    (y : ReaderT Mode (EStateM ε σ) β) (R : α → β → Prop) : Prop :=
  ∀ s s', T s s' → Alongside T R (x mode s) (y mode s')

namespace InStep

variable {mode : Mode} {T : σ → σ → Prop} {x : ReaderT Mode (EStateM ε σ) α}
  {y : ReaderT Mode (EStateM ε σ) β} {R R' : α → β → Prop}

theorem mono (h : InStep mode T x y R) (hR : ∀ a b, R a b → R' a b) : InStep mode T x y R' := by
  intro s s' hs
  rcases (h s s' hs).ok_or_error with ⟨a, t, b, t', hx, hy, ht, hab⟩ | ⟨e, t, t', hx, hy, ht⟩
  · rw [hx, hy]
    exact .ok ht (hR a b hab)
  · rw [hx, hy]
    exact .error ht

theorem pure {a : α} {b : β} (h : R a b) :
    InStep mode T (pure a : ReaderT Mode (EStateM ε σ) α) (pure b) R :=
  fun _ _ hs => .ok hs h

theorem throw (e : ε) (R : α → β → Prop) :
    InStep mode T (throw e : ReaderT Mode (EStateM ε σ) α) (throw e) R :=
  fun _ _ hs => .error hs

/-- The second parts run from states that the first parts have related. -/
theorem bind {f : α → ReaderT Mode (EStateM ε σ) α'} {g : β → ReaderT Mode (EStateM ε σ) β'}
    {Q : α' → β' → Prop} (h : InStep mode T x y R)
    (hfg : ∀ a b, R a b → InStep mode T (f a) (g b) Q) :
    InStep mode T (x >>= f) (y >>= g) Q := by
  intro s s' hs
  show Alongside T Q (EStateM.bind (x mode) (fun a => f a mode) s)
    (EStateM.bind (y mode) (fun b => g b mode) s')
  unfold EStateM.bind
  rcases (h s s' hs).ok_or_error with ⟨a, t, b, t', hx, hy, ht, hab⟩ | ⟨e, t, t', hx, hy, ht⟩
  · rw [hx, hy]
    exact hfg a b hab t t' ht
  · rw [hx, hy]
    exact .error ht

/-- A condition that does not differ between the runs may decide them. -/
theorem ite {c : Prop} [Decidable c] {x' : ReaderT Mode (EStateM ε σ) α}
    {y' : ReaderT Mode (EStateM ε σ) β} (h : c → InStep mode T x y R)
    (h' : ¬c → InStep mode T x' y' R) :
    InStep mode T (if c then x else x') (if c then y else y') R := by
  split
  · next hc => exact h hc
  · next hc => exact h' hc

end InStep

/-- Compiling runs from states that are related come to outcomes of one kind. -/
def Lockstep (T : σ → σ → Prop) (x : ReaderT Mode (EStateM ε σ) α)
    (y : ReaderT Mode (EStateM ε σ) β) (R : α → β → Prop) : Prop :=
  ∀ s s', T s s' → Alongside T R (x .compiling s) (y .compiling s')

namespace Lockstep

section Rules

variable {T : σ → σ → Prop} {x : ReaderT Mode (EStateM ε σ) α} {y : ReaderT Mode (EStateM ε σ) β}
  {R R' : α → β → Prop}

theorem mono (h : Lockstep T x y R) (hR : ∀ a b, R a b → R' a b) : Lockstep T x y R' :=
  InStep.mono h hR

theorem pure {a : α} {b : β} (h : R a b) :
    Lockstep T (pure a : ReaderT Mode (EStateM ε σ) α) (pure b) R :=
  InStep.pure h

theorem throw (e : ε) (R : α → β → Prop) :
    Lockstep T (throw e : ReaderT Mode (EStateM ε σ) α) (throw e) R :=
  InStep.throw e R

theorem bind {f : α → ReaderT Mode (EStateM ε σ) α'} {g : β → ReaderT Mode (EStateM ε σ) β'}
    {Q : α' → β' → Prop} (h : Lockstep T x y R)
    (hfg : ∀ a b, R a b → Lockstep T (f a) (g b) Q) : Lockstep T (x >>= f) (y >>= g) Q :=
  InStep.bind h hfg

theorem map {f : α → α'} {g : β → β'} {Q : α' → β' → Prop}
    (h : Lockstep T x y fun a b => Q (f a) (g b)) : Lockstep T (f <$> x) (g <$> y) Q :=
  h.bind (f := fun a => Pure.pure (f a)) (g := fun b => Pure.pure (g b)) fun _ _ hab => pure hab

theorem ite {c : Prop} [Decidable c] {x' : ReaderT Mode (EStateM ε σ) α}
    {y' : ReaderT Mode (EStateM ε σ) β} (h : c → Lockstep T x y R)
    (h' : ¬c → Lockstep T x' y' R) : Lockstep T (if c then x else x') (if c then y else y') R :=
  InStep.ite h h'

end Rules

/-! ## Circuits -/

section Circuits

variable {x : Build p ε α} {y : Build p ε β} {R : α → β → Prop}

/-- A circuit is in lockstep with itself. -/
theorem same (x : Build p ε α) : Lockstep Eq x x Eq := by
  rintro s _ rfl
  cases x .compiling s with
  | ok a s => exact .ok rfl rfl
  | error e s => exact .error rfl

/-- Equality is kept by runs that compile. -/
theorem kept_eq : System.Kept (p := p) .compiling .compiling Eq where
  numAux hs := congrArg System.numAux hs
  numInputs hs := congrArg System.numInputs hs
  rename hs _ := congrArg _ hs
  addRow hs _ _ _ _ := congrArg _ hs
  growAux hs _ _ _ _ := congrArg System.countAux hs
  growInput hs _ _ _ _ := congrArg System.countInput hs

/-- A circuit that follows is in lockstep when it always compiles. -/
theorem of_follows {Q : β → Prop} (h : Follows .compiling .compiling x y R) (hy : Tidy y Q) :
    Lockstep Eq x y R := by
  rintro s _ rfl
  obtain ⟨b, s', _, hrun, _⟩ := hy s
  obtain ⟨a, _, hrun', rfl, hab⟩ := h Eq kept_eq s s s' b rfl hrun
  rw [hrun, hrun']
  exact .ok rfl hab

/-- Failures are the same, and so are what they become. -/
theorem mapError {f : ε → ε'} (h : Lockstep Eq x y R) :
    Lockstep Eq (mapError f x) (mapError f y) R := by
  rintro s _ rfl
  unfold Build.mapError
  rcases (h s s rfl).ok_or_error with ⟨a, t, b, t', hx, hy, ht, hab⟩ | ⟨e, t, t', hx, hy, ht⟩
  · rw [hx, hy]
    exact .ok ht hab
  · rw [hx, hy]
    exact .error ht

/-- Both runs open and close the namespace. -/
theorem within {name : String} (h : Lockstep Eq x y R) :
    Lockstep Eq (within name x) (within name y) R := by
  rintro s _ rfl
  unfold Build.within
  have hbody := h (recording .compiling (·.enter name) s) _ rfl
  rcases hbody.ok_or_error with ⟨a, t, b, t', hx, hy, ht, hab⟩ | ⟨e, t, t', hx, hy, ht⟩
  · rw [hx, hy]
    exact .ok (congrArg _ ht) hab
  · rw [hx, hy]
    exact .error (congrArg _ ht)

theorem inside (h : Lockstep Eq x y R) :
    (path : List String) → Lockstep Eq (inside path x) (inside path y) R
  | [] => h
  | _ :: path => (Lockstep.inside h path).within

end Circuits

end Lockstep

end RankOne.Build

namespace RankOne

open Build

variable {p : Nat}

/-! ## Allocations and numbers -/

/-- A compiling run does not look at the value. -/
theorem Num.lockstep_alloc (u v : Option (Fp p)) : Lockstep Eq (alloc u) (alloc v) Eq :=
  Lockstep.same (alloc u)

theorem Num.lockstep_allocInput (u v : Option (Fp p)) :
    Lockstep Eq (allocInput u) (allocInput v) Eq :=
  Lockstep.same (allocInput u)

variable [Modulus p]

theorem BitVar.lockstep_alloc (u v : Option Bool) :
    Lockstep Eq (alloc (p := p) u) (alloc v) (BitVar.Alike .compiling) :=
  .of_follows (follows_alloc Bool.false_ne_true.elim) (tidy_alloc v)

omit [Modulus p] in
/-- A combination in a compiling run: its value is not looked at. -/
theorem LinNum.alike_compiling {x y : LinNum p} (h : x.comb = y.comb) : x.Alike .compiling y :=
  ⟨h, (absurd · Bool.false_ne_true)⟩

/-- Only the combination tells whether there is room for so many digits. -/
theorem LinNum.lockstep_toBits {x x' : LinNum p} (hx : x.comb = x'.comb) (n : Nat) :
    Lockstep Eq (x.toBits n) (x'.toBits n) (Each (Bit.Alike .compiling)) := by
  by_cases hroom : n ≤ Fp.capacity p
  · exact .of_follows (follows_toBits (alike_compiling hx) n) (x'.tidy_toBits hroom)
  · rw [toBits, toBits, if_pos (not_le.mp hroom), if_pos (not_le.mp hroom)]
    exact .throw _ _

/-- Bits alike make one row. -/
theorem Num.lockstep_ofBits {bits bits' : List Bit}
    (h : List.Forall₂ (Bit.Alike .compiling) bits bits') :
    Lockstep Eq (ofBits (p := p) bits) (ofBits bits') Eq := by
  apply (lockstep_alloc _ _).within.bind
  rintro x _ rfl
  rw [Bit.weighted_alike h 1]
  exact .same _

/-- Of a bit only its constant or its variable is looked at. -/
theorem Bit.enforceEqual_alike {m : Mode} {a a' b b' : Bit} (ha : a.Alike m a')
    (hb : b.Alike m b') : enforceEqual (p := p) a b = enforceEqual a' b' := by
  have hlc := ha.lc (1 : Fp p)
  have hlc' := hb.lc (1 : Fp p)
  cases ha with
  | const u =>
      cases hb with
      | const v => rfl
      | pos _ | neg _ => cases u <;> simp only [enforceEqual, hlc']
  | pos _ | neg _ =>
      cases hb with
      | const v => cases v <;> simp only [enforceEqual, hlc]
      | pos _ | neg _ => simp only [enforceEqual, hlc, hlc']

/-! ## Integers -/

namespace Bits

variable {w : Nat} {a a' b b' c c' : Bits w}

/-- Bits are allocated one by one, whatever the integer. -/
theorem lockstep_alloc (u v : Option UInt64) :
    Lockstep Eq (alloc (w := w) (p := p) u) (alloc v) (Alike .compiling) :=
  .of_follows (follows_alloc Bool.false_ne_true.elim) (tidy_alloc v)

/-- A packing adds a row with the bits' variables. -/
theorem lockstep_toNum (h : a.Alike .compiling a') :
    Lockstep Eq (toNum (p := p) a) (toNum a') Eq :=
  Num.lockstep_ofBits (Bit.forall₂_alike h.bits)

/-- The number of digits depends on the number of words alone. -/
theorem lockstep_addMany {xs xs' : List (Bits w)} (h : List.Forall₂ (Alike .compiling) xs xs') :
    Lockstep Eq (addMany (p := p) xs) (addMany xs') (Alike .compiling) := by
  rw [addMany, isEmpty_congr h.length_eq, h.length_eq]
  refine Lockstep.ite (fun _ => .pure (alike_refl _ _)) fun _ => ?_
  apply (LinNum.lockstep_toBits (sum_alike h).comb _).within.bind
  intro digits digits' hdigits
  exact .pure (alike_low hdigits)

section Gates

variable (ha : a.Alike .compiling a') (hb : b.Alike .compiling b')

include ha hb

/-- Gates on words alike are folded alike, bit by bit. -/
theorem lockstep_xor : Lockstep Eq (xor (p := p) a b) (xor a' b') (Alike .compiling) :=
  .of_follows (follows_xor ha hb) (tidy_xor a' b')

theorem lockstep_and : Lockstep Eq (and (p := p) a b) (and a' b') (Alike .compiling) :=
  .of_follows (follows_and ha hb) (tidy_and a' b')

/-- So are choices. -/
theorem lockstep_choose (hc : c.Alike .compiling c') :
    Lockstep Eq (choose (p := p) a b c) (choose a' b' c') (Alike .compiling) :=
  .of_follows (follows_choose ha hb hc) (tidy_choose a' b' c')

/-- And majorities. -/
theorem lockstep_majority (hc : c.Alike .compiling c') :
    Lockstep Eq (majority (p := p) a b c) (majority a' b' c') (Alike .compiling) :=
  .of_follows (follows_majority ha hb hc) (tidy_majority a' b' c')

end Gates

end Bits

end RankOne
