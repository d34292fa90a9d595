import RankOne.Proofs.Satisfaction

/-!
# Answers — what a solving run gives where nothing has to hold

    A gadget asks only that its operands have values.  Whether these satisfy
    the rows is another matter, so the lemmas here say of each gadget that a
    solving run gives a result, and what value the result has, for any values
    of the operands.

    The one other reason to stop is a hint that refuses its inputs.  Such a run
    leaves the system as it was, which `body.Refuses e` says.
-/

namespace RankOne

open Build

variable {p : Nat}

namespace Build.Answers

variable {ε ε' α β : Type}

/-- A result may be said to have less. -/
theorem mono {x : Build p ε α} {Q R : α → Prop} (h : Answers x Q) (hQR : ∀ a, Q a → R a) :
    Answers x R := by
  intro u
  obtain ⟨a, u', hrun, hQ⟩ := h u
  exact ⟨a, u', hrun, hQR a hQ⟩

theorem map {x : Build p ε α} {g : α → β} {Q : β → Prop} (hx : Answers x fun a => Q (g a)) :
    Answers (g <$> x) Q :=
  hx.bind fun _ ha => pure ha

theorem mapError {f : ε → ε'} {x : Build p ε α} {Q : α → Prop} (hx : Answers x Q) :
    Answers (mapError f x) Q := by
  intro u
  obtain ⟨a, u', hrun, hQ⟩ := hx u
  exact ⟨a, u', mapError_eq_ok.mpr hrun, hQ⟩

theorem inside {x : Build p ε α} {Q : α → Prop} (hx : Answers x Q) :
    (path : List String) → Answers (inside path x) Q
  | [] => hx
  | _ :: path => (Answers.inside hx path).within

/-- Answers are collected element by element, in order. -/
theorem listMapM {body : α → Build p ε β} {Q : α → β → Prop} (xs : List α)
    (h : ∀ x ∈ xs, Answers (body x) (Q x)) : Answers (xs.mapM body) (List.Forall₂ Q xs) := by
  induction xs with
  | nil => exact pure List.Forall₂.nil
  | cons x rest ih =>
      rw [List.mapM_cons]
      refine (h x List.mem_cons_self).bind fun y hy => ?_
      refine (ih fun x' hx' => h x' (List.mem_cons_of_mem _ hx')).bind fun ys hys => ?_
      exact pure (List.Forall₂.cons hy hys)

end Build.Answers

namespace Build

variable {ε ε' α β : Type}

/-- Every solving run stops with `e` and has allocated nothing. -/
def Refuses (body : Build p ε α) (e : ε) : Prop := ∀ u : System p, body .solving u = .error e u

namespace Refuses

theorem throw (e : ε) : Refuses (throw e : Build p ε α) e := fun _ => rfl

/-- Nothing is left of a namespace in which a run is refused. -/
theorem within {name : String} {x : Build p ε α} {e : ε} (hx : Refuses x e) :
    Refuses (within name x) e := by
  intro u
  have hrun : x .solving (recording .solving (·.enter name) u) = .error e u := hx u
  simp only [Build.within, hrun]
  rfl

/-- What follows a refusal is not reached. -/
theorem bind {x : Build p ε α} {f : α → Build p ε β} {e : ε} (hx : Refuses x e) :
    Refuses (x >>= f) e := by
  intro u
  rw [bind_apply, hx u]

end Refuses

end Build

variable [Modulus p]

namespace Num

/-! ## Arithmetic -/

/-- The number has a value. -/
def Known (x : Num p) : Prop := ∃ v, x.value = some v

omit [Modulus p] in
theorem answers_alloc (v : Fp p) : Answers (alloc (some v)) fun x => x.value = some v :=
  Answers.aux "num" v

variable {x a b cond : Num p}

/-- A constant has a value whatever else is known. -/
theorem answers_constant (c : Fp p) : Answers (constant c) Known := by
  refine (answers_alloc c).within.row fun x hx => ?_
  exact ⟨c, hx⟩

/-- The sum of two values is computed. -/
theorem answers_add (ha : a.Known) (hb : b.Known) : Answers (add a b) Known := by
  obtain ⟨u, hu⟩ := ha
  obtain ⟨v, hv⟩ := hb
  rw [add, hu, hv]
  refine (answers_alloc (u + v)).within.row fun x hx => ?_
  exact ⟨u + v, hx⟩

theorem answers_mul (ha : a.Known) (hb : b.Known) : Answers (mul a b) Known := by
  obtain ⟨u, hu⟩ := ha
  obtain ⟨v, hv⟩ := hb
  rw [mul, hu, hv]
  refine (Answers.aux _ (u * v)).row fun x hx => ?_
  exact ⟨u * v, hx⟩

/-- An inverse is computed for any value; that of zero is zero. -/
theorem answers_isZero (hx : x.Known) : Answers (isZero x) Known := by
  obtain ⟨v, hv⟩ := hx
  rw [isZero, hv]
  refine (answers_alloc (Fp.inv v)).within.bind fun inv _ => ?_
  refine (answers_alloc (Fp.ofBool (v = 0))).within.bind fun out hout => ?_
  refine (Answers.enforce _ _ _ _).bind fun _ _ => ?_
  refine (Answers.enforce _ _ _ _).bind fun _ _ => ?_
  exact Answers.pure ⟨Fp.ofBool (v = 0), hout⟩

/-- The condition may have any value, not only zero or one. -/
theorem answers_select (hc : cond.Known) (ha : a.Known) (hb : b.Known) :
    Answers (select cond a b) Known := by
  obtain ⟨c, hc⟩ := hc
  obtain ⟨u, hu⟩ := ha
  obtain ⟨v, hv⟩ := hb
  have hvalue : (do if (← cond.value) = 0 then b.value else a.value)
      = some (if c = 0 then v else u) := by
    rw [hc, hu, hv]
    exact (apply_ite some _ _ _).symm
  rw [select, hvalue]
  refine (answers_alloc (if c = 0 then v else u)).within.row fun x hx => ?_
  exact ⟨if c = 0 then v else u, hx⟩

/-- Numbers that differ leave a row unsatisfied, and the run goes on. -/
theorem answers_assertEqual {ε : Type} (a b : Num p) :
    Answers (assertEqual a b : Build p ε Unit) fun _ => True :=
  Answers.enforce _ _ _ _

/-- A zero leaves a row unsatisfied likewise. -/
theorem answers_assertNonzero (hx : x.Known) : Answers (assertNonzero x) fun _ => True := by
  obtain ⟨v, hv⟩ := hx
  rw [assertNonzero, hv]
  exact (answers_alloc (Fp.inv v)).within.bind fun _ _ => Answers.enforce _ _ _ _

/-! ## Digits -/

/-- Operands out of range leave rows unsatisfied; only more digits than the
    field has room for are refused. -/
theorem answers_assertGap (name : String) (k : Nat) {n : Nat} (hn : n ≤ Fp.capacity p)
    (ha : a.Known) (hb : b.Known) : Answers (assertGap name k a b n) fun _ => True := by
  obtain ⟨u, hu⟩ := ha
  obtain ⟨v, hv⟩ := hb
  have hrange : ∀ {x : Num p} {u : Fp p}, x.value = some u →
      Answers (x.rangeCheck n) fun _ => True := by
    intro x u hx
    refine (LinNum.answers_toBits (x := x.toLinNum) hx hn).bind fun bits _ => ?_
    exact Answers.pure trivial
  have hgap : (gap a b (k : Fp p)).value = some (v - u - (k : Fp p)) := by
    rw [gap, hu, hv]
    rfl
  refine (hrange hu).within.bind fun _ _ => ?_
  refine (hrange hv).within.bind fun _ _ => ?_
  exact (LinNum.answers_toBits hgap hn).within.bind fun _ _ => Answers.pure trivial

end Num

end RankOne
