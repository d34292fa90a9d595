import RankOne.Proofs.Comparison
import RankOne.Proofs.Sizes

/-!
# Abreast — circuits of one size

    A gate on a constant is folded away, so how much a circuit adds depends on
    which of its operands are constants.  It depends on nothing else: not on
    the variables that the operands are, not on their signs, and not on the
    system that the circuit is added to.

    Bits are similar when they are the same constant or when neither is one.
    `Abreast x y R` says that compiling runs of `x` and of `y`, from any two
    systems, come to outcomes of one kind with results related by `R`, and that
    both add the same.  Gates on similar bits are abreast and give similar
    bits, which makes this a comparison like the others: what holds of gates
    holds of whatever is made of them.
-/

namespace RankOne

open Build

variable {p : Nat}

namespace System

/-- Both systems have grown by the same, the one since `s₀` and the other since
    `t₀`, with the namespaces `ρ` open in both. -/
def Abreast (s₀ t₀ : System p) (ρ : List String) (s t : System p) : Prop :=
  ∃ n, s₀.Grown ρ n s ∧ t₀.Grown ρ n t

namespace Abreast

variable {s₀ t₀ s t : System p} {ρ : List String} {name : String}

theorem refl (s t : System p) : Abreast s t [] s t := ⟨0, .refl s, .refl t⟩

/-- Both runs open the namespace. -/
theorem enter (h : Abreast s₀ t₀ ρ s t) :
    Abreast s₀ t₀ (name :: ρ) (recording .compiling (·.enter name) s)
      (recording .compiling (·.enter name) t) := by
  obtain ⟨n, hs, ht⟩ := h
  exact ⟨n, hs.enter name, ht.enter name⟩

/-- And close it. -/
theorem leave (h : Abreast s₀ t₀ (name :: ρ) s t) :
    Abreast s₀ t₀ ρ (recording .compiling (·.leave) s) (recording .compiling (·.leave) t) := by
  obtain ⟨n, hs, ht⟩ := h
  exact ⟨n, hs.leave, ht.leave⟩

end Abreast

end System

namespace Build

variable {ε α α' β β' : Type}

/-- Compiling runs come to outcomes of one kind and add the same. -/
def Abreast (x : Build p ε α) (y : Build p ε β) (R : α → β → Prop) : Prop :=
  ∀ s₀ t₀ ρ, InStep .compiling (System.Abreast s₀ t₀ ρ) x y R

namespace Abreast

variable {x : Build p ε α} {y : Build p ε β} {R R' : α → β → Prop}

theorem mono (h : Abreast x y R) (hR : ∀ a b, R a b → R' a b) : Abreast x y R' :=
  fun s₀ t₀ ρ => (h s₀ t₀ ρ).mono hR

theorem pure {a : α} {b : β} (h : R a b) : Abreast (pure a : Build p ε α) (pure b) R :=
  fun _ _ _ => .pure h

theorem throw (e : ε) (R : α → β → Prop) : Abreast (throw e : Build p ε α) (throw e) R :=
  fun _ _ _ => .throw e R

/-- Sizes of the parts add up in both runs. -/
theorem bind {f : α → Build p ε α'} {g : β → Build p ε β'} {Q : α' → β' → Prop}
    (h : Abreast x y R) (hfg : ∀ a b, R a b → Abreast (f a) (g b) Q) :
    Abreast (x >>= f) (y >>= g) Q :=
  fun s₀ t₀ ρ => (h s₀ t₀ ρ).bind fun a b hab => hfg a b hab s₀ t₀ ρ

theorem map {f : α → α'} {g : β → β'} {Q : α' → β' → Prop}
    (h : Abreast x y fun a b => Q (f a) (g b)) : Abreast (f <$> x) (g <$> y) Q :=
  h.bind (f := fun a => Pure.pure (f a)) (g := fun b => Pure.pure (g b)) fun _ _ hab => pure hab

theorem within {name : String} (h : Abreast x y R) :
    Abreast (within name x) (within name y) R := by
  intro s₀ t₀ ρ s t hst
  unfold Build.within
  have hbody := h s₀ t₀ (name :: ρ) _ _ hst.enter
  rcases hbody.ok_or_error with
    ⟨a, s', b, t', hx, hy, hst', hab⟩ | ⟨e, s', t', hx, hy, hst'⟩
  · rw [hx, hy]
    exact .ok hst'.leave hab
  · rw [hx, hy]
    exact .error hst'.leave

/-- Circuits that add the same, each by itself. -/
theorem of_adds {n : Nat × Nat} {P : α → Prop} {Q : β → Prop} (hx : Adds n x P) (hy : Adds n y Q)
    (hR : ∀ a b, P a → Q b → R a b) : Abreast x y R := by
  rintro s₀ t₀ ρ s t ⟨m, hs, ht⟩
  obtain ⟨a, s', hrun, hgrown, ha⟩ := hx s
  obtain ⟨b, t', hrun', hgrown', hb⟩ := hy t
  rw [hrun, hrun']
  exact .ok ⟨m + n, hs.trans hgrown, ht.trans hgrown'⟩ (hR a b ha hb)

/-- By induction on the number of rounds. -/
private theorem tabulateTo {k : Nat} {f : Fin k → Build p ε α} {g : Fin k → Build p ε β}
    (h : ∀ i, Abreast (f i) (g i) R) (n : Nat) (le : n ≤ k) :
    Abreast (tabulateTo f n le) (tabulateTo g n le) (Each R) := by
  induction n with
  | zero => exact pure fun i hi => absurd hi (Nat.not_lt_zero i)
  | succ n ih =>
      refine (ih (by omega)).bind fun v w hvw => (h ⟨n, le⟩).bind fun a b hab => ?_
      exact pure (hvw.push hab)

theorem tabulate {n : Nat} {f : Fin n → Build p ε α} {g : Fin n → Build p ε β}
    (h : ∀ i, Abreast (f i) (g i) R) : Abreast (tabulate f) (tabulate g) (Each R) :=
  tabulateTo h n (Nat.le_refl n)

/-- Whatever is abreast of a circuit that compiles adds what that circuit adds. -/
theorem exists_adds [Modulus p] {x : Build p ε α} (hx : Completes x)
    (self : Abreast x x fun _ _ => True) :
    ∃ n, ∀ {β : Type} (y : Build p ε β), (Abreast x y fun _ _ => True) →
      Adds n y fun _ => True := by
  obtain ⟨a, s', hrun⟩ := hx .start
  obtain ⟨n, hn, _⟩ := (self .start .start [] _ _ (.refl _ _)).stateOf
  rw [hrun] at hn
  refine ⟨n, fun y hy t => ?_⟩
  have halongside := hy .start t [] _ _ (.refl _ _)
  rw [hrun] at halongside
  rcases halongside.ok_or_error with ⟨_, _, b, t', heq, hrun', ⟨m, hm, hm'⟩, _⟩ | ⟨_, _, _, heq, _⟩
  · cases heq
    obtain rfl : m = n := hm.unique hn
    exact ⟨b, t', hrun', hm', trivial⟩
  · cases heq

end Abreast

end Build

/-! ## Similar bits -/

namespace Bit

/-- The same constant, or two bits of which neither is one. -/
inductive Similar : Bit → Bit → Prop where
  | const (v : Bool) : Similar (.const v) (.const v)
  | var {a b : Bit} (ha : a.IsVar) (hb : b.IsVar) : Similar a b

/-- Negation keeps constants constants and variables variables. -/
theorem Similar.not {a b : Bit} (h : a.Similar b) : a.not.Similar b.not := by
  cases h with
  | const v => exact .const _
  | var ha hb => exact .var ha.not hb.not

variable [Modulus p] {a a' b b' c c' : Bit}

/-- One variable and one row, whatever the signs. -/
theorem adds_xor (ha : a.IsVar) (hb : b.IsVar) : Adds (1, 1) (xor (p := p) a b) IsVar := by
  cases a with
  | const v => exact absurd rfl (ha v)
  | pos x =>
      cases b with
      | const v => exact absurd rfl (hb v)
      | pos y => exact ((BitVar.adds_row _ _ _ _ _ _).mono fun r _ => isVar_pos r).map
      | neg y => exact ((BitVar.adds_row _ _ _ _ _ _).mono fun r _ => isVar_neg r).map
  | neg x =>
      cases b with
      | const v => exact absurd rfl (hb v)
      | pos y => exact ((BitVar.adds_row _ _ _ _ _ _).mono fun r _ => isVar_neg r).map
      | neg y => exact ((BitVar.adds_row _ _ _ _ _ _).mono fun r _ => isVar_pos r).map

theorem adds_and (ha : a.IsVar) (hb : b.IsVar) : Adds (1, 1) (and (p := p) a b) IsVar := by
  cases a with
  | const v => exact absurd rfl (ha v)
  | pos x =>
      cases b with
      | const v => exact absurd rfl (hb v)
      | pos y | neg y => exact ((BitVar.adds_row _ _ _ _ _ _).mono fun r _ => isVar_pos r).map
  | neg x =>
      cases b with
      | const v => exact absurd rfl (hb v)
      | pos y | neg y => exact ((BitVar.adds_row _ _ _ _ _ _).mono fun r _ => isVar_pos r).map

/-- A choice allocates its result, and adds one row. -/
theorem adds_chooseVar (a b c : Bit) : Adds (1, 1) (chooseVar (p := p) a b c) IsVar := by
  refine Adds.of_eq (m := (0, 1) + (1, 0)) ?_ rfl
  refine (Adds.aux _ _).row fun ch _ => ?_
  exact isVar_pos _

/-- A majority allocates the conjunction of two operands besides its result. -/
theorem adds_majorityVar (a : Bit) (hb : b.IsVar) (hc : c.IsVar) :
    Adds (2, 2) (majorityVar (p := p) a b c) IsVar := by
  refine Adds.of_eq (m := (0, 1) + ((1, 1) + (1, 0))) ?_ rfl
  refine (Adds.aux _ _).bind fun maj _ => ?_
  refine (adds_and hb hc).within.row fun bc _ => ?_
  exact isVar_pos _

theorem Similar.isVar (h : a.Similar b) (ha : a.IsVar) : b.IsVar := by
  cases h with
  | const v => exact ha
  | var _ hb => exact hb

/-- To add as much as another run is a judgement that folds. -/
theorem folds_abreast : Folds (p := p) Meaning.circuit Similar
    fun body body' => Abreast body body' Similar where
  of_const h := by
    cases h with
    | const v => rfl
    | var ha _ => exact absurd rfl (ha _)
  const v := .const v
  not h := h.not
  give h := .pure h
  negate h := .map (h.mono fun _ _ hr => hr.not)

/-- Similar operands are folded in the same way, and what is left has one
    size. -/
theorem abreast_xor (ha : a.Similar a') (hb : b.Similar b') :
    Abreast (xor (p := p) a b) (xor a' b') Similar := by
  refine folds_abreast.xor ha hb fun hvar hvar₁ => ?_
  have hadds' : Adds (1, 1) (xor (p := p) a' b') IsVar := adds_xor (ha.isVar hvar) (hb.isVar hvar₁)
  exact .of_adds (adds_xor hvar hvar₁) hadds' fun _ _ => .var

theorem abreast_and (ha : a.Similar a') (hb : b.Similar b') :
    Abreast (and (p := p) a b) (and a' b') Similar := by
  refine folds_abreast.and ha hb fun hvar hvar₁ => ?_
  have hadds' : Adds (1, 1) (and (p := p) a' b') IsVar := adds_and (ha.isVar hvar) (hb.isVar hvar₁)
  exact .of_adds (adds_and hvar hvar₁) hadds' fun _ _ => .var

/-- A choice folds alike on similar operands. -/
theorem abreast_choose (ha : a.Similar a') (hb : b.Similar b') (hc : c.Similar c') :
    Abreast (choose (p := p) a b c) (choose a' b' c') Similar := by
  refine folds_abreast.choose_beside Similar.isVar ha hb hc abreast_and ?_
  exact .of_adds (adds_chooseVar a b c) (adds_chooseVar a' b' c') fun _ _ => .var

/-- So does a majority. -/
theorem abreast_majority (ha : a.Similar a') (hb : b.Similar b') (hc : c.Similar c') :
    Abreast (majority (p := p) a b c) (majority a' b' c') Similar := by
  refine folds_abreast.majority_beside Similar.isVar ha hb hc abreast_and ?_
  intro hb hc hb' hc'
  exact .of_adds (adds_majorityVar a hb hc) (adds_majorityVar a' hb' hc') fun _ _ => .var

end Bit

/-! ## Digits -/

variable [Modulus p]

/-- What is split does not matter, whether there is room for the digits or not. -/
theorem LinNum.abreast_toBits (x x' : LinNum p) (n : Nat) :
    Abreast (x.toBits n) (x'.toBits n) (Each Bit.Similar) := by
  by_cases hroom : n ≤ Fp.capacity p
  · refine .of_adds (x.adds_toBits hroom) (x'.adds_toBits hroom) fun a b ha hb i hi => ?_
    obtain ⟨u, hu⟩ := ha i hi
    obtain ⟨v, hv⟩ := hb i hi
    rw [hu, hv]
    exact .var (Bit.isVar_pos u) (Bit.isVar_pos v)
  · rw [toBits, toBits, if_pos (not_le.mp hroom), if_pos (not_le.mp hroom)]
    exact .throw _ _

/-! ## Integers -/

namespace Bits

variable {w : Nat} {x x' y y' : Bits w}

/-- Integers of similar bits. -/
def Similar (x y : Bits w) : Prop := Each Bit.Similar x.bits y.bits

omit [Modulus p] in
theorem similar_constant (v : UInt64) : (constant v : Bits w).Similar (constant v) := by
  intro i hi
  rw [bits_constant]
  exact .const _

omit [Modulus p] in
/-- A gate on words adds what it adds bit by bit. -/
theorem abreast_bitwise {gate : Bit → Bit → Build p SynthesisError Bit}
    (hgate : ∀ {a a' b b'}, Bit.Similar a a' → Bit.Similar b b' →
      Abreast (gate a b) (gate a' b') Bit.Similar)
    (onValues : UInt64 → UInt64 → UInt64) (hx : x.Similar x') (hy : y.Similar y') :
    Abreast (bitwise gate onValues x y) (bitwise gate onValues x' y') Similar :=
  (Abreast.tabulate fun i => (hgate (hx i i.isLt) (hy i i.isLt)).within).bind
    fun _ _ h => .pure h

omit [Modulus p] in
theorem abreast_bitwise₃ {gate : Bit → Bit → Bit → Build p SynthesisError Bit}
    (hgate : ∀ {a a' b b' c c'}, Bit.Similar a a' → Bit.Similar b b' → Bit.Similar c c' →
      Abreast (gate a b c) (gate a' b' c') Bit.Similar)
    (onValues : UInt64 → UInt64 → UInt64 → UInt64) {z z' : Bits w} (hx : x.Similar x')
    (hy : y.Similar y') (hz : z.Similar z') :
    Abreast (bitwise₃ gate onValues x y z) (bitwise₃ gate onValues x' y' z') Similar :=
  (Abreast.tabulate fun i => (hgate (hx i i.isLt) (hy i i.isLt) (hz i i.isLt)).within).bind
    fun _ _ h => .pure h

/-- A sum takes digits of its own, as many as its operands ask for. -/
theorem abreast_addMany {xs xs' : List (Bits w)} (h : xs.length = xs'.length) :
    Abreast (addMany (p := p) xs) (addMany xs') Similar := by
  rw [addMany, addMany, isEmpty_congr h, h]
  split
  · exact .pure (similar_constant 0)
  · refine (LinNum.abreast_toBits _ _ _).within.bind fun digits digits' hdigits => .pure ?_
    exact rel_low (.const false) hdigits

end Bits

/-! ## The sense of the comparison -/

/-- Operands with the same constants.  Numbers are not looked at. -/
@[reducible] def Likeness.similar : Likeness p where
  bit := Bit.Similar
  bits := Bits.Similar
  lin _ _ := True
  constant := Bits.similar_constant
  ofBits h := h
  each h := h
  rotateRight := Bits.rel_rotateRight
  shiftRight := Bits.rel_shiftRight (.const false)

/-- Compiling runs add the same. -/
def Comparison.abreast : Comparison (p := p) .similar where
  num _ _ := True
  rel := Abreast
  pure := Abreast.pure
  bind := Abreast.bind
  within := Abreast.within
  toBits _ := LinNum.abreast_toBits _ _
  ofBits _ := .of_adds (Num.adds_ofBits _) (Num.adds_ofBits _) fun _ _ _ _ => trivial
  fromNum _ := .map (LinNum.abreast_toBits _ _ _)
  xor := Bits.abreast_bitwise Bit.abreast_xor _
  choose := Bits.abreast_bitwise₃ Bit.abreast_choose _
  majority := Bits.abreast_bitwise₃ Bit.abreast_majority _
  addMany h := Bits.abreast_addMany h.length_eq

end RankOne
