import RankOne.Proofs.Gates

/-!
# Meanings — constants are folded away alike in every reading of a gate

    A gate on bits first looks for constants and signs and then falls back to a
    gate on variables.  The cases overlap, and where they do they agree: an
    equation says what becomes of a gate on a constant, whatever its other
    operands are.

    The same equations hold of truth values, of the polynomials that the rows
    force, and of the gates of a second circuit.  A `Meaning` is anything that
    they hold of.  A judgement relates a circuit to a meaning of it; `Folds`
    lists what it needs for constants, negation and the results that a gate
    passes on.  The case analysis of the gates is done here, once for all
    judgements, and what is left of each is its gate on variables.
-/

namespace RankOne

open Build

variable {p : Nat} [Modulus p]

namespace Bit

/-! ## Folding is coherent -/

section Coherence

variable (a b c : Bit)

/-- A constant decides an exclusive or. -/
theorem xor_const (v : Bool) : xor (p := p) (.const v) b = pure (if v then b.not else b) := by
  rcases v with _ | _ <;> rcases b with (_ | _) | _ | _ <;> rfl

theorem xor_else_const (v : Bool) : xor (p := p) a (.const v) = pure (if v then a.not else a) := by
  rcases v with _ | _ <;> rcases a with (_ | _) | _ | _ <;> rfl

/-- A constant decides a conjunction. -/
theorem and_const (v : Bool) :
    and (p := p) (.const v) b = pure (if v then b else .const false) := by
  rcases v with _ | _ <;> rcases b with (_ | _) | _ | _ <;> rfl

theorem and_else_const (v : Bool) :
    and (p := p) a (.const v) = pure (if v then a else .const false) := by
  rcases v with _ | _ <;> rcases a with (_ | _) | _ | _ <;> rfl

/-- The constant zero chooses the last operand. -/
theorem choose_false : choose (p := p) (.const false) b c = pure c := by
  rcases b with (_ | _) | _ | _ <;> rcases c with (_ | _) | _ | _ <;> rfl

/-- A constant among the operands leaves a conjunction. -/
theorem choose_zero : choose (p := p) a (.const false) c = a.not.and c := by
  rcases a with (_ | _) | _ | _ <;> rcases c with (_ | _) | _ | _ <;> rfl

theorem choose_one : choose (p := p) a (.const true) c = not <$> a.not.and c.not := by
  rcases a with (_ | _) | _ | _ <;> rcases c with (_ | _) | _ | _ <;> rfl

theorem choose_else_zero : choose (p := p) a b (.const false) = a.and b := by
  rcases a with (_ | _) | _ | _ <;> rcases b with (_ | _) | _ | _ <;> rfl

theorem choose_else_one : choose (p := p) a b (.const true) = not <$> a.and b.not := by
  rcases a with (_ | _) | _ | _ <;> rcases b with (_ | _) | _ | _ <;> rfl

/-- A constant among three leaves a gate on the other two. -/
theorem majority_false : majority (p := p) (.const false) b c = b.and c := by
  rcases b with (_ | _) | _ | _ <;> rcases c with (_ | _) | _ | _ <;> rfl

theorem majority_true : majority (p := p) (.const true) b c = not <$> b.not.and c.not := by
  rcases b with (_ | _) | _ | _ <;> rcases c with (_ | _) | _ | _ <;> rfl

theorem majority_zero : majority (p := p) a (.const false) c = a.and c := by
  rcases a with (_ | _) | _ | _ <;> rcases c with (_ | _) | _ | _ <;> rfl

theorem majority_one : majority (p := p) a (.const true) c = not <$> a.not.and c.not := by
  rcases a with (_ | _) | _ | _ <;> rcases c with (_ | _) | _ | _ <;> rfl

theorem majority_else_zero : majority (p := p) a b (.const false) = a.and b := by
  rcases a with (_ | _) | _ | _ <;> rcases b with (_ | _) | _ | _ <;> rfl

theorem majority_else_one : majority (p := p) a b (.const true) = not <$> a.not.and b.not := by
  rcases a with (_ | _) | _ | _ <;> rcases b with (_ | _) | _ | _ <;> rfl

end Coherence

/-! ## Operands that are no constants -/

/-- A variable or the negation of one. -/
def IsVar (b : Bit) : Prop := ∀ v, b ≠ .const v

theorem isVar_pos (x : BitVar) : (pos x).IsVar := nofun

theorem isVar_neg (x : BitVar) : (neg x).IsVar := nofun

/-- A bit is a constant or a signed variable. -/
theorem const_or_isVar (b : Bit) : (∃ v, b = .const v) ∨ b.IsVar := by
  cases b with
  | const v => exact .inl ⟨v, rfl⟩
  | pos x => exact .inr (isVar_pos x)
  | neg x => exact .inr (isVar_neg x)

/-- Negation changes the sign only. -/
theorem IsVar.not {b : Bit} (h : b.IsVar) : b.not.IsVar := by
  cases b with
  | const v => exact absurd rfl (h v)
  | pos x => exact isVar_neg x
  | neg x => exact isVar_pos x

variable {a b c : Bit}

/-- Where no constant decides, a variable is allocated. -/
theorem choose_var (ha : a ≠ .const false) (hb : b.IsVar) (hc : c.IsVar) :
    choose (p := p) a b c = chooseVar a b c := by
  unfold choose
  split
  · exact absurd rfl (hb _)
  · exact absurd rfl ha
  · exact absurd rfl (hb _)
  · exact absurd rfl (hc _)
  · exact absurd rfl (hc _)
  · exact absurd rfl (hb _)
  · rfl

/-- Likewise, where none of the three is a constant. -/
theorem majority_var (ha : a.IsVar) (hb : b.IsVar) (hc : c.IsVar) :
    majority (p := p) a b c = majorityVar a b c := by
  unfold majority
  split
  · exact absurd rfl (ha _)
  · exact absurd rfl (ha _)
  · exact absurd rfl (hb _)
  · exact absurd rfl (hc _)
  · exact absurd rfl (hc _)
  · exact absurd rfl (hb _)
  · exact absurd rfl (ha _)
  · rfl

end Bit

/-! ## Meanings -/

/-- What operands and gates can stand for: `give` is a gate that passes on what
    is there, and `negate` one with its result negated.  Each gate agrees with
    the simpler ones where an operand is a constant. -/
structure Meaning (β γ : Type) where
  const : Bool → β
  not : β → β
  give : β → γ
  negate : γ → γ
  xor : β → β → γ
  and : β → β → γ
  choose : β → β → β → γ
  majority : β → β → β → γ
  xor_const : ∀ v y, xor (const v) y = give (if v then not y else y)
  xor_else_const : ∀ x v, xor x (const v) = give (if v then not x else x)
  and_const : ∀ v y, and (const v) y = give (if v then y else const false)
  and_else_const : ∀ x v, and x (const v) = give (if v then x else const false)
  choose_false : ∀ y o, choose (const false) y o = give o
  choose_zero : ∀ x o, choose x (const false) o = and (not x) o
  choose_one : ∀ x o, choose x (const true) o = negate (and (not x) (not o))
  choose_else_zero : ∀ x y, choose x y (const false) = and x y
  choose_else_one : ∀ x y, choose x y (const true) = negate (and x (not y))
  majority_false : ∀ y o, majority (const false) y o = and y o
  majority_true : ∀ y o, majority (const true) y o = negate (and (not y) (not o))
  majority_zero : ∀ x o, majority x (const false) o = and x o
  majority_one : ∀ x o, majority x (const true) o = negate (and (not x) (not o))
  majority_else_zero : ∀ x y, majority x y (const false) = and x y
  majority_else_one : ∀ x y, majority x y (const true) = negate (and (not x) (not y))

namespace Meaning

/-- Gates stand for themselves, in another circuit. -/
def circuit : Meaning Bit (Build p SynthesisError Bit) where
  const := .const
  not := Bit.not
  give := pure
  negate := (Bit.not <$> ·)
  xor := Bit.xor
  and := Bit.and
  choose := Bit.choose
  majority := Bit.majority
  xor_const v b := Bit.xor_const b v
  xor_else_const := Bit.xor_else_const
  and_const v b := Bit.and_const b v
  and_else_const := Bit.and_else_const
  choose_false := Bit.choose_false
  choose_zero := Bit.choose_zero
  choose_one := Bit.choose_one
  choose_else_zero := Bit.choose_else_zero
  choose_else_one := Bit.choose_else_one
  majority_false := Bit.majority_false
  majority_true := Bit.majority_true
  majority_zero := Bit.majority_zero
  majority_one := Bit.majority_one
  majority_else_zero := Bit.majority_else_zero
  majority_else_one := Bit.majority_else_one

/-- Gates stand for the Boolean operations. -/
def truth : Meaning Bool Bool where
  const := id
  not := (!·)
  give := id
  negate := (!·)
  xor := Bool.xor
  and := Bool.and
  choose := Bit.choice
  majority := Bit.most
  xor_const := by decide
  xor_else_const := by decide
  and_const := by decide
  and_else_const := by decide
  choose_false := by decide
  choose_zero := by decide
  choose_one := by decide
  choose_else_zero := by decide
  choose_else_one := by decide
  majority_false := by decide
  majority_true := by decide
  majority_zero := by decide
  majority_one := by decide
  majority_else_zero := by decide
  majority_else_one := by decide

/-- Gates stand for the polynomials that are the Boolean operations on zero and
    one. -/
def polynomial : Meaning (Fp p) (Fp p) where
  const := Fp.ofBool
  not x := 1 - x
  give := id
  negate x := 1 - x
  xor x y := x + y - 2 * x * y
  and x y := x * y
  choose x y o := x * (y - o) + o
  majority x y o := x * y + x * o + y * o - 2 * x * y * o
  xor_const v y := by cases v <;> simp; ring
  xor_else_const x v := by cases v <;> simp; ring
  and_const v y := by cases v <;> simp
  and_else_const x v := by cases v <;> simp
  choose_false y o := by simp
  choose_zero x o := by simp; ring
  choose_one x o := by simp; ring
  choose_else_zero x y := by simp
  choose_else_one x y := by simp; ring
  majority_false y o := by simp
  majority_true y o := by simp; ring
  majority_zero x o := by simp
  majority_one x o := by simp; ring
  majority_else_zero x y := by simp
  majority_else_one x y := by simp; ring

/-- Gates stand for nothing. -/
def nothing : Meaning Unit Unit where
  const _ := ()
  not _ := ()
  give _ := ()
  negate _ := ()
  xor _ _ := ()
  and _ _ := ()
  choose _ _ _ := ()
  majority _ _ _ := ()
  xor_const _ _ := rfl
  xor_else_const _ _ := rfl
  and_const _ _ := rfl
  and_else_const _ _ := rfl
  choose_false _ _ := rfl
  choose_zero _ _ := rfl
  choose_one _ _ := rfl
  choose_else_zero _ _ := rfl
  choose_else_one _ _ := rfl
  majority_false _ _ := rfl
  majority_true _ _ := rfl
  majority_zero _ _ := rfl
  majority_one _ _ := rfl
  majority_else_zero _ _ := rfl
  majority_else_one _ _ := rfl

end Meaning

/-! ## Judgements -/

/-- A judgement `J` relates circuits to what they mean, for operands with the
    meanings that `R` says.  It holds of what a gate passes on, and is kept
    where a result is negated. -/
structure Folds {β γ : Type} (M : Meaning β γ) (R : Bit → β → Prop)
    (J : Build p SynthesisError Bit → γ → Prop) : Prop where
  of_const : ∀ {v x}, R (.const v) x → x = M.const v
  const : ∀ v, R (.const v) (M.const v)
  not : ∀ {a x}, R a x → R a.not (M.not x)
  give : ∀ {a x}, R a x → J (pure a) (M.give x)
  negate : ∀ {body m}, J body m → J (Bit.not <$> body) (M.negate m)

namespace Folds

variable {β γ : Type} {M : Meaning β γ} {R : Bit → β → Prop}
  {J : Build p SynthesisError Bit → γ → Prop} {a b c : Bit} {x y o : β}

/-- The case split of exclusive or: with no constant it is the gate on variables
    that has to be looked at. -/
theorem xor (h : Folds M R J) (ha : R a x) (hb : R b y)
    (hvar : a.IsVar → b.IsVar → J (a.xor b) (M.xor x y)) : J (a.xor b) (M.xor x y) := by
  rcases a.const_or_isVar with ⟨u, rfl⟩ | ha'
  · obtain rfl := h.of_const ha
    rw [Bit.xor_const, M.xor_const]
    cases u with
    | false => exact h.give hb
    | true => exact h.give (h.not hb)
  rcases b.const_or_isVar with ⟨u, rfl⟩ | hb'
  · obtain rfl := h.of_const hb
    rw [Bit.xor_else_const, M.xor_else_const]
    cases u with
    | false => exact h.give ha
    | true => exact h.give (h.not ha)
  exact hvar ha' hb'

/-- The case split of conjunction. -/
theorem and (h : Folds M R J) (ha : R a x) (hb : R b y)
    (hvar : a.IsVar → b.IsVar → J (a.and b) (M.and x y)) : J (a.and b) (M.and x y) := by
  rcases a.const_or_isVar with ⟨u, rfl⟩ | ha'
  · obtain rfl := h.of_const ha
    rw [Bit.and_const, M.and_const]
    cases u with
    | false => exact h.give (h.const false)
    | true => exact h.give hb
  rcases b.const_or_isVar with ⟨u, rfl⟩ | hb'
  · obtain rfl := h.of_const hb
    rw [Bit.and_else_const, M.and_else_const]
    cases u with
    | false => exact h.give (h.const false)
    | true => exact h.give ha
  exact hvar ha' hb'

/-- One constant is enough to leave a conjunction, or its negation. -/
theorem choose (h : Folds M R J) (ha : R a x) (hb : R b y) (hc : R c o)
    (hand : ∀ {a b x y}, R a x → R b y → J (a.and b) (M.and x y))
    (hvar : a ≠ .const false → b.IsVar → c.IsVar → J (a.chooseVar b c) (M.choose x y o)) :
    J (a.choose b c) (M.choose x y o) := by
  rcases c.const_or_isVar with ⟨u, rfl⟩ | hc'
  · obtain rfl := h.of_const hc
    cases u with
    | false =>
        rw [Bit.choose_else_zero, M.choose_else_zero]
        exact hand ha hb
    | true =>
        rw [Bit.choose_else_one, M.choose_else_one]
        exact h.negate (hand ha (h.not hb))
  rcases b.const_or_isVar with ⟨u, rfl⟩ | hb'
  · obtain rfl := h.of_const hb
    cases u with
    | false =>
        rw [Bit.choose_zero, M.choose_zero]
        exact hand (h.not ha) hc
    | true =>
        rw [Bit.choose_one, M.choose_one]
        exact h.negate (hand (h.not ha) (h.not hc))
  by_cases hfalse : a = .const false
  · subst hfalse
    obtain rfl := h.of_const ha
    rw [Bit.choose_false, M.choose_false]
    exact h.give hc
  rw [Bit.choose_var hfalse hb' hc']
  exact hvar hfalse hb' hc'

/-- A zero leaves the conjunction of the others, a one their disjunction. -/
theorem majority (h : Folds M R J) (ha : R a x) (hb : R b y) (hc : R c o)
    (hand : ∀ {a b x y}, R a x → R b y → J (a.and b) (M.and x y))
    (hvar : a.IsVar → b.IsVar → c.IsVar → J (a.majorityVar b c) (M.majority x y o)) :
    J (a.majority b c) (M.majority x y o) := by
  rcases c.const_or_isVar with ⟨u, rfl⟩ | hc'
  · obtain rfl := h.of_const hc
    cases u with
    | false =>
        rw [Bit.majority_else_zero, M.majority_else_zero]
        exact hand ha hb
    | true =>
        rw [Bit.majority_else_one, M.majority_else_one]
        exact h.negate (hand (h.not ha) (h.not hb))
  rcases b.const_or_isVar with ⟨u, rfl⟩ | hb'
  · obtain rfl := h.of_const hb
    cases u with
    | false =>
        rw [Bit.majority_zero, M.majority_zero]
        exact hand ha hc
    | true =>
        rw [Bit.majority_one, M.majority_one]
        exact h.negate (hand (h.not ha) (h.not hc))
  rcases a.const_or_isVar with ⟨u, rfl⟩ | ha'
  · obtain rfl := h.of_const ha
    cases u with
    | false =>
        rw [Bit.majority_false, M.majority_false]
        exact hand hb hc
    | true =>
        rw [Bit.majority_true, M.majority_true]
        exact h.negate (hand (h.not hb) (h.not hc))
  rw [Bit.majority_var ha' hb' hc']
  exact hvar ha' hb' hc'

/-! ## Two circuits beside each other -/

section Beside

variable {R : Bit → Bit → Prop}
  {J : Build p SynthesisError Bit → Build p SynthesisError Bit → Prop} {a' b' c' : Bit}

/-- A choice beside another one, on operands that are related: a constant that
    decides the one decides the other. -/
theorem choose_beside (h : Folds Meaning.circuit R J) (hR : ∀ {a b}, R a b → a.IsVar → b.IsVar)
    (ha : R a a') (hb : R b b') (hc : R c c')
    (hand : ∀ {a b a' b'}, R a a' → R b b' → J (a.and b) (a'.and b'))
    (hvar : J (a.chooseVar b c) (a'.chooseVar b' c')) :
    J (a.choose b c) (a'.choose b' c') := by
  refine h.choose ha hb hc hand fun hfalse hb' hc' => ?_
  have hfalse' : a' ≠ .const false := by
    rcases a.const_or_isVar with ⟨u, rfl⟩ | hvar
    · rw [show a' = .const u from h.of_const ha]
      exact hfalse
    · exact hR ha hvar false
  show J _ (a'.choose b' c')
  rw [Bit.choose_var hfalse' (hR hb hb') (hR hc hc')]
  exact hvar

/-- Likewise for two majorities. -/
theorem majority_beside (h : Folds Meaning.circuit R J) (hR : ∀ {a b}, R a b → a.IsVar → b.IsVar)
    (ha : R a a') (hb : R b b') (hc : R c c')
    (hand : ∀ {a b a' b'}, R a a' → R b b' → J (a.and b) (a'.and b'))
    (hvar : b.IsVar → c.IsVar → b'.IsVar → c'.IsVar →
      J (a.majorityVar b c) (a'.majorityVar b' c')) :
    J (a.majority b c) (a'.majority b' c') := by
  refine h.majority ha hb hc hand fun ha' hb' hc' => ?_
  show J _ (a'.majority b' c')
  rw [Bit.majority_var (hR ha ha') (hR hb hb') (hR hc hc')]
  exact hvar hb' hc' (hR hb hb') (hR hc hc')

end Beside

end Folds

end RankOne
