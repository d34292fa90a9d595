import RankOne.Proofs.Comparison

/-!
# Renaming — circuits do not look at names

    A circuit names what it allocates and never asks what the names are.  Two
    runs of one circuit in one mode come to the same outcome when the
    namespaces around its parts bear other names, as long as both systems have
    counted the same variables.

    `System.Stable N mode T` lists what a relation between the two systems has
    to be kept by: one clause for each primitive.  Namespaces may be opened
    under names that `N` relates, everything else has one name in both runs.
    `T` may look at the namespaces that were opened since the start, of which
    it is given the names, innermost first.  `Uniform N x y R` is then shown
    once for each circuit, in every mode and for every such relation at once,
    so that it holds of systems that differ in names, of equal systems, and of
    systems beside a record of what was done to them.
-/

namespace RankOne

open Build

variable {p : Nat}

/-- A relation between the systems of two runs, below the namespaces given to
    it, that every primitive keeps when namespaces are opened under names that
    `N` relates. -/
structure System.Stable (N : String → String → Prop) (mode : Mode)
    (T : List String → System p → System p → Prop) : Prop where
  same : ∀ name, N name name
  numAux : ∀ {ρ s s'}, T ρ s s' → s.numAux = s'.numAux
  enter : ∀ {ρ s s'}, T ρ s s' → ∀ {name name'}, N name name' →
    T (name' :: ρ) (recording mode (·.enter name) s) (recording mode (·.enter name') s')
  leave : ∀ {ρ s s' name}, T (name :: ρ) s s' →
    T ρ (recording mode (·.leave) s) (recording mode (·.leave) s')
  addRow : ∀ {ρ s s'}, T ρ s s' → ∀ name a b c,
    T ρ (recording mode (·.addRow name a b c) s) (recording mode (·.addRow name a b c) s')
  aux : ∀ {ρ s s'}, T ρ s s' → ∀ name {v}, (mode.solves = true → v ≠ none) →
    T ρ (recording mode (·.claim name) (s.growAux mode v))
      (recording mode (·.claim name) (s'.growAux mode v))

namespace Build

variable {N : String → String → Prop} {ε α α' β β' : Type}

/-- Runs of the circuits in any mode, from systems that any stable relation
    relates, come to outcomes of one kind. -/
def Uniform (N : String → String → Prop) (x : Build p ε α) (y : Build p ε β)
    (R : α → β → Prop) : Prop :=
  ∀ mode T, System.Stable N mode T → ∀ ρ, InStep mode (T ρ) x y R

namespace Uniform

variable {x : Build p ε α} {y : Build p ε β} {R R' : α → β → Prop}

/-- Results may be said to have less in common. -/
theorem mono (h : Uniform N x y R) (hR : ∀ a b, R a b → R' a b) : Uniform N x y R' :=
  fun mode T hT ρ => (h mode T hT ρ).mono hR

theorem pure {a : α} {b : β} (h : R a b) : Uniform N (pure a : Build p ε α) (pure b) R :=
  fun _ _ _ _ => .pure h

theorem throw (e : ε) (R : α → β → Prop) : Uniform N (throw e : Build p ε α) (throw e) R :=
  fun _ _ _ _ => .throw e R

/-- What comes second runs from the pair of systems that comes first left. -/
theorem bind {f : α → Build p ε α'} {g : β → Build p ε β'} {Q : α' → β' → Prop}
    (h : Uniform N x y R) (hfg : ∀ a b, R a b → Uniform N (f a) (g b) Q) :
    Uniform N (x >>= f) (y >>= g) Q :=
  fun mode T hT ρ => (h mode T hT ρ).bind fun a b hab => hfg a b hab mode T hT ρ

/-- The one place where names may differ. -/
theorem within {name name' : String} (hN : (∀ n, N n n) → N name name') (h : Uniform N x y R) :
    Uniform N (within name x) (within name' y) R := by
  intro mode T hT ρ s s' hs
  unfold Build.within
  rcases (h mode T hT _ _ _ (hT.enter hs (hN hT.same))).ok_or_error with
    ⟨a, t, b, t', hx, hy, ht, hab⟩ | ⟨e, t, t', hx, hy, ht⟩
  · rw [hx, hy]
    exact .ok (hT.leave ht) hab
  · rw [hx, hy]
    exact .error (hT.leave ht)

/-- Runs over one list stay together element by element. -/
theorem listMapM {f : α → Build p ε α'} {g : α → Build p ε β'} {Q : α' → β' → Prop} (xs : List α)
    (h : ∀ x, Uniform N (f x) (g x) Q) : Uniform N (xs.mapM f) (xs.mapM g) (List.Forall₂ Q) := by
  induction xs with
  | nil => exact pure .nil
  | cons x rest ih =>
      rw [List.mapM_cons, List.mapM_cons]
      exact (h x).bind fun a b hab => ih.bind fun as bs habs => pure (.cons hab habs)

end Uniform

/-! ## A circuit beside itself -/

/-- A circuit whose own names are all that it gives. -/
abbrev Natural (N : String → String → Prop) (x : Build p ε α) : Prop := Uniform N x x Eq

namespace Natural

variable {x : Build p ε α}

theorem pure (a : α) : Natural N (pure a : Build p ε α) := Uniform.pure rfl

theorem throw (e : ε) : Natural N (throw e : Build p ε α) := Uniform.throw e Eq

/-- A circuit is natural where its parts are. -/
theorem bind {f : α → Build p ε β} (hx : Natural N x) (hf : ∀ a, Natural N (f a)) :
    Natural N (x >>= f) := by
  refine Uniform.bind hx ?_
  rintro a _ rfl
  exact hf a

theorem map {g : α → β} (hx : Natural N x) : Natural N (g <$> x) := hx.bind fun _ => pure _

/-- A namespace is opened under one name in both runs. -/
theorem within {name : String} (hx : Natural N x) : Natural N (within name x) :=
  Uniform.within (fun hsame => hsame name) hx

/-- A row has one name and the same terms in both runs. -/
theorem enforce (name : String) (a b c : LinComb p) :
    Natural N (enforce name a b c : Build p ε Unit) :=
  fun _ _ hT _ _ _ hs => .ok (hT.addRow hs name a b c) rfl

/-- A circuit, one row, and what is made of the result. -/
theorem row {name : String} {a b c : α → LinComb p} {g : α → β} (hx : Natural N x) :
    Natural N (do let r ← x; Build.enforce name (a r) (b r) (c r); return g r) := by
  refine hx.bind fun r => ?_
  exact (Natural.enforce name (a r) (b r) (c r)).bind fun _ => pure (g r)

/-- A variable has the number that both runs have counted to. -/
theorem aux (name : String) (v : Option (Fp p)) : Natural N (aux name v) := by
  intro mode T hT ρ s s' hs
  by_cases hv : mode.solves = true → v ≠ none
  · rw [aux_eq_ok.mpr ⟨hv, rfl, rfl⟩, aux_eq_ok.mpr ⟨hv, rfl, rfl⟩, hT.numAux hs]
    exact .ok (hT.aux hs name hv) rfl
  · obtain ⟨hsolves, hnone⟩ := Classical.not_imp.mp hv
    obtain rfl := not_not.mp hnone
    simp only [Build.aux, hsolves]
    exact .error hs

private theorem tabulateTo {m : Nat} {body : Fin m → Build p ε α} (h : ∀ i, Natural N (body i))
    (n : Nat) (le : n ≤ m) : Natural N (tabulateTo body n le) := by
  induction n with
  | zero => exact pure _
  | succ n ih => exact (ih (by omega)).bind fun _ => (h ⟨n, le⟩).bind fun _ => pure _

theorem tabulate {n : Nat} {body : Fin n → Build p ε α} (h : ∀ i, Natural N (body i)) :
    Natural N (tabulate body) :=
  tabulateTo h n (Nat.le_refl n)

end Natural

end Build

/-! ## Gates and digits -/

variable {N : String → String → Prop} [Modulus p]

namespace BitVar

/-- A gate on variables: its result is allocated, and one row is added. -/
theorem natural_row (name row : String) (value : Option Bool) (l m : LinComb p)
    (c : BitVar → LinComb p) :
    Natural N (do let r ← result name value; enforce row l m (c r); return r) := by
  have hresult : Natural N (result (p := p) name value) :=
    (Natural.aux _ _).bind fun _ => .pure _
  exact hresult.row

theorem natural_alloc (value : Option Bool) : Natural N (alloc (p := p) value) :=
  (Natural.aux _ _).row

end BitVar

namespace Bit

omit [Modulus p] in
/-- To run uniformly is a judgement that folds, with no meaning to keep track
    of. -/
theorem folds_natural : Folds (p := p) Meaning.nothing (fun _ _ => True)
    fun body _ => Natural N body where
  of_const _ := rfl
  const _ := trivial
  not _ := trivial
  give _ := .pure _
  negate h := h.bind fun _ => .pure _

/-- The gates on variables differ in the row only. -/
theorem natural_xor (a b : Bit) : Natural N (xor (p := p) a b) := by
  refine folds_natural.xor (x := ()) (y := ()) trivial trivial fun ha hb => ?_
  cases a with
  | const v => exact absurd rfl (ha v)
  | pos x | neg x =>
      cases b with
      | const v => exact absurd rfl (hb v)
      | pos y | neg y => exact (BitVar.natural_row _ _ _ _ _ _).bind fun _ => .pure _

/-- So do these four. -/
theorem natural_and (a b : Bit) : Natural N (and (p := p) a b) := by
  refine folds_natural.and (x := ()) (y := ()) trivial trivial fun ha hb => ?_
  cases a with
  | const v => exact absurd rfl (ha v)
  | pos x | neg x =>
      cases b with
      | const v => exact absurd rfl (hb v)
      | pos y | neg y => exact (BitVar.natural_row _ _ _ _ _ _).bind fun _ => .pure _

/-- A choice allocates one variable and adds one row. -/
theorem natural_choose (a b c : Bit) : Natural N (choose (p := p) a b c) := by
  refine folds_natural.choose (x := ()) (y := ()) (o := ()) trivial trivial trivial
    (fun _ _ => natural_and _ _) fun _ _ _ => ?_
  exact (Natural.aux _ _).row

/-- A majority does so around a conjunction. -/
theorem natural_majority (a b c : Bit) : Natural N (majority (p := p) a b c) := by
  refine folds_natural.majority (x := ()) (y := ()) (o := ()) trivial trivial trivial
    (fun _ _ => natural_and _ _) fun _ _ _ => ?_
  refine (Natural.aux _ _).bind fun maj => ?_
  exact (natural_and b c).within.row

end Bit

/-- Too many digits are refused under any names. -/
theorem LinNum.natural_toBits (x : LinNum p) (n : Nat) : Natural N (x.toBits n) := by
  have hdigits : Natural N (BitVar.allocDigits x.value n) :=
    .tabulate fun i => (BitVar.natural_alloc _).within
  rw [toBits]
  split
  · exact (Natural.throw _).bind fun _ => hdigits.row
  · exact hdigits.row

theorem Num.natural_ofBits (bits : List Bit) : Natural N (ofBits (p := p) bits) :=
  (Natural.aux _ _).within.row

namespace Bits

variable {w : Nat}

theorem natural_fromNum (x : Num p) : Natural N (fromNum (w := w) x) :=
  (x.toLinNum.natural_toBits w).map

omit [Modulus p] in
theorem natural_bitwise {gate : Bit → Bit → Build p SynthesisError Bit}
    (hgate : ∀ a b, Natural N (gate a b)) (onValues : UInt64 → UInt64 → UInt64)
    (a b : Bits w) : Natural N (bitwise gate onValues a b) :=
  (Natural.tabulate fun _ => (hgate _ _).within).bind fun _ => .pure _

omit [Modulus p] in
theorem natural_bitwise₃ {gate : Bit → Bit → Bit → Build p SynthesisError Bit}
    (hgate : ∀ a b c, Natural N (gate a b c))
    (onValues : UInt64 → UInt64 → UInt64 → UInt64) (a b c : Bits w) :
    Natural N (bitwise₃ gate onValues a b c) :=
  (Natural.tabulate fun _ => (hgate _ _ _).within).bind fun _ => .pure _

/-- The sum of words is split into digits, which are natural. -/
theorem natural_addMany (xs : List (Bits w)) : Natural N (addMany (p := p) xs) := by
  rw [addMany]
  split
  · exact .pure _
  · exact (LinNum.natural_toBits _ _).within.bind fun _ => .pure _

end Bits

/-! ## The sense of the comparison -/

namespace Comparison

omit [Modulus p] in
/-- Lists that are alike entry by entry are equal where alike is equal. -/
private theorem eq_of_forall₂ {α : Type} {R : α → α → Prop} {xs ys : List α}
    (h : List.Forall₂ R xs ys) (hR : ∀ a b, R a b → a = b) : xs = ys := by
  have heq := h.imp hR
  rw [List.forall₂_eq_eq_eq] at heq
  exact heq

omit [Modulus p] in
/-- A natural circuit runs uniformly with itself. -/
private theorem of_natural {ε α : Type} {x : Build p ε α} {R : α → α → Prop} (h : Natural N x)
    (hR : ∀ a, R a a) : Uniform N x x R :=
  h.mono fun a _ hab => hab ▸ hR a

/-- Runs under other names, of equal operands, come to equal results: where
    values are computed, alike is equal. -/
def uniform (N : String → String → Prop) : Comparison (p := p) (.alike .solving) where
  num := Eq
  rel := Uniform N
  pure := Uniform.pure
  bind := Uniform.bind
  within := Uniform.within fun hsame => hsame _
  toBits {x x'} h n := by
    obtain ⟨value, comb⟩ := x
    obtain ⟨value', comb'⟩ := x'
    obtain rfl : comb = comb' := h.comb
    obtain rfl : value = value' := h.solved rfl
    exact of_natural (LinNum.natural_toBits _ n) fun _ _ _ => Bit.alike_refl _ _
  ofBits h := by
    rw [eq_of_forall₂ h fun _ _ hb => hb.eq rfl]
    exact Num.natural_ofBits _
  fromNum {w x x'} h := by
    rw [h]
    exact of_natural (Bits.natural_fromNum x') (Bits.alike_refl _)
  xor ha hb := by
    rw [ha.eq rfl, hb.eq rfl]
    exact of_natural (Bits.natural_bitwise Bit.natural_xor _ _ _) (Bits.alike_refl _)
  choose ha hb hc := by
    rw [ha.eq rfl, hb.eq rfl, hc.eq rfl]
    exact of_natural (Bits.natural_bitwise₃ Bit.natural_choose _ _ _ _) (Bits.alike_refl _)
  majority ha hb hc := by
    rw [ha.eq rfl, hb.eq rfl, hc.eq rfl]
    exact of_natural (Bits.natural_bitwise₃ Bit.natural_majority _ _ _ _) (Bits.alike_refl _)
  addMany h := by
    rw [eq_of_forall₂ h fun _ _ hx => hx.eq rfl]
    exact of_natural (Bits.natural_addMany _) (Bits.alike_refl _)

end Comparison

end RankOne
