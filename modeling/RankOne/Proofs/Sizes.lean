import Mathlib.Algebra.Module.NatInt
import Mathlib.Algebra.Module.Prod
import RankOne.Proofs.FloorDivision
import RankOne.Proofs.Paths

/-!
# Sizes — how many rows and variables a circuit adds

    A compiling run is a sequence of acts that opens and closes its namespaces
    in pairs.  What a circuit costs is what these acts add up to: rows to
    satisfy and variables to solve for.  `Adds n body Q` says that from every
    system a compiling run gives a result with `Q`, and adds `n.1` rows and
    `n.2` private variables, and nothing else that is counted.

    Sizes are pairs and add up: the rules below have the sum of the parts for
    what is put together, and a multiple for what is repeated.  No value and no
    name enters, so a gadget has one size in all its uses.
-/

namespace RankOne

open Build

variable {p : Nat}

/-! ## The size of a sequence of acts -/

/-- The rows and the private variables that an act adds. -/
def Act.size : Act p → Nat × Nat
  | .aux _ => (0, 1)
  | .row _ _ _ _ => (1, 0)
  | .enter _ => 0
  | .leave => 0

/-- The rows and the private variables that acts add. -/
def tally (acts : List (Act p)) : Nat × Nat := (acts.map Act.size).sum

/-- What acts add, they add one after the other. -/
theorem tally_append (acts acts' : List (Act p)) :
    tally (acts ++ acts') = tally acts + tally acts' := by
  rw [tally, List.map_append, List.sum_append]
  rfl

/-- Namespaces that stay open around acts change nothing. -/
theorem opened_around {acts : List (Act p)} {ρ ρ' : List String}
    (h : acts.foldlM Act.opens ρ = some ρ') (base : List String) :
    acts.foldlM Act.opens (ρ ++ base) = some (ρ' ++ base) := by
  induction acts generalizing ρ with
  | nil =>
      obtain rfl := Option.some.inj h
      rfl
  | cons act rest ih =>
      obtain ⟨ρ₁, hact, hrest⟩ := Option.bind_eq_some_iff.mp h
      have hbase : act.opens (ρ ++ base) = some (ρ₁ ++ base) := by
        cases act with
        | aux name => exact congrArg (some <| · ++ base) (Option.some.inj hact)
        | row name a b c => exact congrArg (some <| · ++ base) (Option.some.inj hact)
        | enter name => exact congrArg (some <| · ++ base) (Option.some.inj hact)
        | leave =>
            cases ρ with
            | nil => exact nomatch hact
            | cons name ρ => exact congrArg (some <| · ++ base) (Option.some.inj hact)
      exact Option.bind_eq_some_iff.mpr ⟨_, hbase, ih hrest⟩

/-- Acts after other acts open their namespaces inside those of the first. -/
theorem opened_append {acts acts' : List (Act p)} {ρ ρ' : List String}
    (h : opened acts = some ρ) (h' : opened acts' = some ρ') :
    opened (acts ++ acts') = some (ρ' ++ ρ) := by
  have hfirst : acts.foldlM Act.opens [] = some ρ := h
  rw [opened, List.foldlM_append, hfirst]
  exact opened_around h' ρ

namespace System

/-- The numbers of rows and of private variables. -/
def size (s : System p) : Nat × Nat := (s.rows.size, s.numAux)

/-- An act adds its size, and no public input. -/
theorem size_perform (act : Act p) (s : System p) :
    (act.perform s).size = s.size + act.size ∧ (act.perform s).numInputs = s.numInputs := by
  cases act with
  | aux name => exact ⟨rfl, rfl⟩
  | row name a b c => exact ⟨Prod.ext (Array.size_push _) rfl, rfl⟩
  | enter name => exact ⟨rfl, rfl⟩
  | leave => exact ⟨rfl, rfl⟩

/-- So do acts together. -/
theorem size_performAll (acts : List (Act p)) (s : System p) :
    (performAll acts s).size = s.size + tally acts ∧
      (performAll acts s).numInputs = s.numInputs := by
  induction acts generalizing s with
  | nil => exact ⟨(add_zero s.size).symm, rfl⟩
  | cons act rest ih =>
      obtain ⟨hsize, hinputs⟩ := ih (act.perform s)
      obtain ⟨hstep, hkept⟩ := size_perform act s
      refine ⟨?_, hinputs.trans hkept⟩
      show (performAll rest (act.perform s)).size = s.size + (act.size + tally rest)
      rw [hsize, hstep, add_assoc]

/-- Acts lead from one system to another, with the namespaces `ρ` open since;
    they add `n.1` rows and `n.2` private variables. -/
def Grown (ρ : List String) (n : Nat × Nat) (s s' : System p) : Prop :=
  ∃ acts, opened acts = some ρ ∧ s' = performAll acts s ∧ tally acts = n

namespace Grown

variable {ρ ρ' : List String} {n m : Nat × Nat} {s s₁ s' : System p}

theorem refl (s : System p) : s.Grown [] 0 s := ⟨[], rfl, rfl, rfl⟩

/-- Sizes add up, and the namespaces opened last are the innermost. -/
theorem trans (h : s.Grown ρ n s₁) (h' : s₁.Grown ρ' m s') : s.Grown (ρ' ++ ρ) (n + m) s' := by
  obtain ⟨acts, hopened, rfl, rfl⟩ := h
  obtain ⟨acts', hopened', rfl, rfl⟩ := h'
  refine ⟨acts ++ acts', opened_append hopened hopened', ?_, tally_append acts acts'⟩
  show performAll acts' (performAll acts s) = performAll (acts ++ acts') s
  exact List.foldl_append.symm

/-- One more act. -/
theorem concat (h : s.Grown ρ n s₁) (act : Act p) (hopens : act.opens ρ = some ρ') :
    s.Grown ρ' (n + act.size) (act.perform s₁) := by
  obtain ⟨acts, hopened, rfl, rfl⟩ := h
  refine ⟨acts ++ [act], (opened_concat hopened).trans hopens, performAll_concat.symm, ?_⟩
  rw [tally_append]
  exact congrArg (tally acts + ·) (add_zero act.size)

/-- A single act. -/
theorem act (act : Act p) (hopens : act.opens [] = some ρ) (s : System p) :
    s.Grown ρ act.size (act.perform s) := by
  have hgrown : s.Grown ρ (0 + act.size) (act.perform s) := (refl s).concat act hopens
  rwa [zero_add] at hgrown

/-- To open a namespace costs nothing. -/
theorem enter (h : s.Grown ρ n s₁) (name : String) : s.Grown (name :: ρ) n (s₁.enter name) :=
  h.concat (.enter name) rfl

/-- Nor does it to close one. -/
theorem leave {name : String} (h : s.Grown (name :: ρ) n s₁) : s.Grown ρ n s₁.leave :=
  h.concat .leave rfl

/-- What a system has grown by is its difference in size. -/
theorem size (h : s.Grown ρ n s') : s'.size = s.size + n := by
  obtain ⟨acts, -, rfl, rfl⟩ := h
  exact (size_performAll acts s).1

/-- No act is for a public input. -/
theorem numInputs (h : s.Grown ρ n s') : s'.numInputs = s.numInputs := by
  obtain ⟨acts, -, rfl, -⟩ := h
  exact (size_performAll acts s).2

theorem rows (h : s.Grown ρ n s') : s'.rows.size = s.rows.size + n.1 := by
  have hsize := congrArg Prod.fst h.size
  exact hsize

theorem numAux (h : s.Grown ρ n s') : s'.numAux = s.numAux + n.2 := by
  have hsize := congrArg Prod.snd h.size
  exact hsize

/-- A system has grown by one size only. -/
theorem unique (h : s.Grown ρ n s') (h' : s.Grown ρ' m s') : n = m := by
  have hsizes : s.size + n = s.size + m := h.size.symm.trans h'.size
  exact add_left_cancel hsizes

/-- Rows that were added without a fault have different paths. -/
theorem nodup_paths (h : s.Grown ρ n s') (hfault : s'.naming.fault = none) :
    ((s.rowsSince s').map Row.path).Nodup := by
  obtain ⟨acts, hopened, rfl, -⟩ := h
  obtain ⟨new, hrows, hpaths⟩ := rows_performAll acts s
  rw [rowsSince_append hrows]
  exact (nodup_claimed hopened hfault).1.sublist hpaths

end Grown

end System

/-! ## Circuits -/

namespace Build

variable {ε ε' α β : Type} {n m : Nat × Nat}

/-- A compiling run gives a result with `Q`, and adds `n.1` rows and `n.2`
    private variables. -/
def Adds (n : Nat × Nat) (body : Build p ε α) (Q : α → Prop) : Prop :=
  ∀ s : System p, ∃ a s', body .compiling s = .ok a s' ∧ s.Grown [] n s' ∧ Q a

namespace Adds

/-- The same size, written otherwise. -/
theorem of_eq {body : Build p ε α} {Q : α → Prop} (h : Adds m body Q) (hn : m = n) :
    Adds n body Q := by
  subst hn
  exact h

theorem mono {body : Build p ε α} {Q R : α → Prop} (h : Adds n body Q) (hQR : ∀ a, Q a → R a) :
    Adds n body R := by
  intro s
  obtain ⟨a, s', hrun, hgrown, hQ⟩ := h s
  exact ⟨a, s', hrun, hgrown, hQR a hQ⟩

/-- A result alone adds nothing. -/
theorem pure {a : α} {Q : α → Prop} (h : Q a) : Adds 0 (pure a : Build p ε α) Q := by
  intro s
  exact ⟨a, s, rfl, .refl s, h⟩

/-- Circuits one after the other add what both add. -/
theorem bind {x : Build p ε α} {f : α → Build p ε β} {Q : α → Prop} {R : β → Prop}
    (hx : Adds n x Q) (hf : ∀ a, Q a → Adds m (f a) R) : Adds (n + m) (x >>= f) R := by
  intro s
  obtain ⟨a, s₁, hrun₁, hgrown₁, hQ⟩ := hx s
  obtain ⟨b, s₂, hrun₂, hgrown₂, hR⟩ := hf a hQ s₁
  exact ⟨b, s₂, bind_eq_ok.mpr ⟨a, s₁, hrun₁, hrun₂⟩, hgrown₁.trans hgrown₂, hR⟩

/-- What is made of a result adds nothing. -/
theorem map {x : Build p ε α} {g : α → β} {Q : β → Prop} (hx : Adds n x fun a => Q (g a)) :
    Adds n (g <$> x) Q := by
  have hmap : Adds (n + 0) (g <$> x) Q := hx.bind (f := fun a => Pure.pure (g a)) fun _ h => pure h
  exact hmap.of_eq (add_zero n)

/-- Nor does another type of failures. -/
theorem mapError {f : ε → ε'} {x : Build p ε α} {Q : α → Prop} (hx : Adds n x Q) :
    Adds n (mapError f x) Q := by
  intro s
  obtain ⟨a, s', hrun, hrest⟩ := hx s
  exact ⟨a, s', mapError_eq_ok.mpr hrun, hrest⟩

/-- A namespace around a circuit adds nothing. -/
theorem within {name : String} {x : Build p ε α} {Q : α → Prop} (hx : Adds n x Q) :
    Adds n (within name x) Q := by
  intro s
  obtain ⟨a, s', hrun, hgrown, hQ⟩ := hx (s.enter name)
  have hinner : s.Grown [name] (0 + n) s' := ((System.Grown.refl s).enter name).trans hgrown
  rw [zero_add] at hinner
  exact ⟨a, s'.leave, within_eq_ok.mpr ⟨s', hrun, rfl⟩, hinner.leave, hQ⟩

/-- A constraint is one row. -/
theorem enforce (name : String) [Modulus p] (a b c : LinComb p) :
    Adds (1, 0) (enforce name a b c : Build p ε Unit) fun _ => True := by
  intro s
  have hgrown : s.Grown [] (1, 0) (s.addRow name a b c) := .act (.row name a b c) rfl s
  exact ⟨(), s.addRow name a b c, rfl, hgrown, trivial⟩

/-- A circuit and one row about its result. -/
theorem row {name : String} [Modulus p] {x : Build p ε α} {a b c : α → LinComb p} {g : α → β}
    {Q : α → Prop} {R : β → Prop} (hx : Adds n x Q) (hR : ∀ r, Q r → R (g r)) :
    Adds (n + (1, 0)) (do let r ← x; Build.enforce name (a r) (b r) (c r); return g r) R := by
  have hrow : Adds (n + ((1, 0) + 0))
      (do let r ← x; Build.enforce name (a r) (b r) (c r); return g r) R := by
    refine hx.bind fun r hr => ?_
    refine (Adds.enforce name (a r) (b r) (c r)).bind fun _ _ => pure ?_
    exact hR r hr
  exact hrow.of_eq rfl

/-- A private variable is one variable, which a compiling run gives no value. -/
theorem aux (name : String) (value : Option (Fp p)) :
    Adds (0, 1) (aux name value) fun x => x.value = none := by
  intro s
  have hgrown : s.Grown [] (0, 1) (s.countAux.claim name) := .act (.aux name) rfl s
  exact ⟨⟨.aux s.numAux, none⟩, s.countAux.claim name, rfl, hgrown, rfl⟩

private theorem tabulateTo {k : Nat} {body : Fin k → Build p ε α} {Q : α → Prop}
    (h : ∀ i, Adds n (body i) Q) (j : Nat) (le : j ≤ k) :
    Adds (j • n) (tabulateTo body j le) fun v => ∀ i (hi : i < j), Q v[i] := by
  induction j with
  | zero =>
      refine (pure ?_).of_eq (zero_nsmul n).symm
      intro i hi
      exact absurd hi (Nat.not_lt_zero i)
  | succ j ih =>
      refine Adds.of_eq (m := j • n + (n + 0)) ?_ ?_
      · refine (ih (by omega)).bind fun v hv => ?_
        refine (h ⟨j, le⟩).bind fun a ha => pure ?_
        exact forall_push (Q := fun _ => Q) le hv ha
      · rw [add_zero, succ_nsmul]

/-- Circuits of one size, as often as there are entries. -/
theorem tabulate {k : Nat} {body : Fin k → Build p ε α} {Q : α → Prop}
    (h : ∀ i, Adds n (body i) Q) :
    Adds (k • n) (tabulate body) fun v => ∀ i (hi : i < k), Q v[i] :=
  tabulateTo h k (Nat.le_refl k)

/-- The same over a list. -/
theorem listMapM {body : α → Build p ε β} (xs : List α) (h : ∀ x, Adds n (body x) fun _ => True) :
    Adds (xs.length • n) (xs.mapM body) fun ys => ys.length = xs.length := by
  induction xs with
  | nil => exact (pure (Q := fun ys : List β => ys.length = 0) rfl).of_eq (zero_nsmul n).symm
  | cons x rest ih =>
      rw [List.mapM_cons]
      refine Adds.of_eq (m := n + (rest.length • n + 0)) ?_ ?_
      · refine (h x).bind fun y _ => ?_
        refine ih.bind fun ys hys => pure ?_
        exact congrArg Nat.succ hys
      · rw [add_zero, List.length_cons, succ_nsmul, add_comm]

/-- The same over a list, where there are no results. -/
theorem listForM {body : α → Build p ε Unit} (xs : List α)
    (h : ∀ x, Adds n (body x) fun _ => True) :
    Adds (xs.length • n) (xs.forM body) fun _ => True := by
  induction xs with
  | nil => exact (pure trivial).of_eq (zero_nsmul n).symm
  | cons x rest ih =>
      have hrest : Adds (n + rest.length • n) (List.forM (x :: rest) body) fun _ => True :=
        (h x).bind fun _ _ => ih
      refine hrest.of_eq ?_
      rw [List.length_cons, succ_nsmul, add_comm]

end Adds

end Build

variable [Modulus p]

/-! ## Numbers -/

namespace BitVar

/-- A bit is one variable, and one row that makes it a truth value. -/
theorem adds_alloc (value : Option Bool) : Adds (1, 1) (alloc (p := p) value) fun _ => True := by
  refine Adds.of_eq (m := (0, 1) + (1, 0)) ?_ rfl
  exact (Adds.aux _ _).row fun _ _ => trivial

/-- A gate on variables: its result, and one row. -/
theorem adds_row (name row : String) (value : Option Bool) (l m : LinComb p)
    (c : BitVar → LinComb p) :
    Adds (1, 1) (do let r ← result name value; enforce row l m (c r); return r)
      fun _ => True := by
  have hresult : Adds (0, 1) (result (p := p) name value) fun _ => True := by
    refine Adds.of_eq (m := (0, 1) + 0) ?_ rfl
    exact (Adds.aux name _).bind fun x _ => .pure trivial
  refine Adds.of_eq (m := (0, 1) + (1, 0)) ?_ rfl
  exact hresult.row fun _ _ => trivial

end BitVar

/-- One row for each digit, and one that puts the digits together. -/
theorem LinNum.adds_toBits (x : LinNum p) {n : Nat} (hn : n ≤ Fp.capacity p) :
    Adds (n + 1, n) (x.toBits n) fun bits => ∀ i (hi : i < n), ∃ b, bits[i] = .pos b := by
  rw [toBits, if_neg (not_lt.mpr hn)]
  have hdigits : Adds (n • (1, 1)) (BitVar.allocDigits x.value n) fun _ => True :=
    (Adds.tabulate fun i => (BitVar.adds_alloc _).within).mono fun _ _ => trivial
  refine Adds.of_eq (m := n • (1, 1) + (1, 0)) ?_ (by simp)
  refine hdigits.row fun digits _ i hi => ?_
  exact ⟨digits[i], Vector.getElem_map _ _⟩

namespace Num

variable {ε : Type}

omit [Modulus p] in
/-- A number is one variable. -/
theorem adds_alloc (value : Option (Fp p)) : Adds (0, 1) (alloc value) fun x => x.value = none :=
  .aux "num" value

theorem adds_constant (c : Fp p) : Adds (1, 1) (constant c) fun _ => True := by
  refine Adds.of_eq (m := (0, 1) + (1, 0)) ?_ rfl
  exact (adds_alloc _).within.row fun _ _ => trivial

theorem adds_add (a b : Num p) : Adds (1, 1) (add a b) fun _ => True := by
  refine Adds.of_eq (m := (0, 1) + (1, 0)) ?_ rfl
  exact (adds_alloc _).within.row fun _ _ => trivial

theorem adds_mul (a b : Num p) : Adds (1, 1) (mul a b) fun _ => True := by
  refine Adds.of_eq (m := (0, 1) + (1, 0)) ?_ rfl
  exact (Adds.aux _ _).row fun _ _ => trivial

/-- Two variables, the answer and an inverse, and a row for each. -/
theorem adds_isZero (x : Num p) : Adds (2, 2) (isZero x) fun _ => True := by
  refine Adds.of_eq (m := (0, 1) + ((0, 1) + ((1, 0) + ((1, 0) + 0)))) ?_ rfl
  refine (adds_alloc _).within.bind fun r _ => ?_
  refine (adds_alloc _).within.bind fun inverse _ => ?_
  refine (Adds.enforce _ _ _ _).bind fun _ _ => ?_
  refine (Adds.enforce _ _ _ _).bind fun _ _ => ?_
  exact .pure trivial

theorem adds_select (cond a b : Num p) : Adds (1, 1) (select cond a b) fun _ => True := by
  refine Adds.of_eq (m := (0, 1) + (1, 0)) ?_ rfl
  exact (adds_alloc _).within.row fun _ _ => trivial

theorem adds_assertEqual (a b : Num p) :
    Adds (1, 0) (assertEqual a b : Build p ε Unit) fun _ => True :=
  .enforce _ _ _ _

theorem adds_ofBits (bits : List Bit) : Adds (1, 1) (ofBits (p := p) bits) fun _ => True := by
  refine Adds.of_eq (m := (0, 1) + (1, 0)) ?_ rfl
  exact (adds_alloc _).within.row fun _ _ => trivial

/-- A number is split as the combination that it is. -/
theorem adds_toBits (x : Num p) {n : Nat} (hn : n ≤ Fp.capacity p) :
    Adds (n + 1, n) (x.toBits n) fun _ => True := by
  have hbits := x.toLinNum.adds_toBits hn
  exact hbits.mono fun _ _ => trivial

/-- A range check costs as much as the digits that it asks for. -/
theorem adds_rangeCheck (x : Num p) {n : Nat} (hn : n ≤ Fp.capacity p) :
    Adds (n + 1, n) (x.rangeCheck n) fun _ => True :=
  (x.adds_toBits hn).map

/-! ## Assertions -/

/-- Three numbers are split: the operands and their difference. -/
theorem adds_assertGap (name : String) (k : Nat) (a b : Num p) {n : Nat}
    (hn : n ≤ Fp.capacity p) : Adds (3 * n + 3, 3 * n) (assertGap name k a b n) fun _ => True := by
  refine Adds.of_eq (m := (n + 1, n) + ((n + 1, n) + ((n + 1, n) + 0))) ?_ ?_
  · refine (a.adds_rangeCheck hn).within.bind fun _ _ => ?_
    refine (b.adds_rangeCheck hn).within.bind fun _ _ => ?_
    exact (LinNum.adds_toBits _ hn).within.bind fun _ _ => .pure trivial
  · refine Prod.ext ?_ ?_
    · show n + 1 + (n + 1 + (n + 1 + 0)) = 3 * n + 3
      omega
    · show n + (n + (n + 0)) = 3 * n
      omega

/-- Two constants to fall back on, and two selections. -/
theorem adds_mask (enabled a b : Num p) (u v : Fp p) :
    Adds (4, 4) (mask enabled a b u v) fun _ => True := by
  refine Adds.of_eq (m := (1, 1) + ((1, 1) + ((1, 1) + ((1, 1) + 0)))) ?_ rfl
  refine (adds_constant u).within.bind fun x _ => ?_
  refine (adds_constant v).within.bind fun y _ => ?_
  refine (adds_select _ _ _).within.bind fun left _ => ?_
  refine (adds_select _ _ _).within.bind fun right _ => ?_
  exact .pure trivial

/-- A masked assertion costs the mask more. -/
theorem adds_assertEqualIf (enabled a b : Num p) :
    Adds (5, 4) (assertEqualIf enabled a b) fun _ => True := by
  refine Adds.of_eq (m := (4, 4) + (1, 0)) ?_ rfl
  refine (adds_mask _ _ _ _ _).within.bind fun masked _ => ?_
  exact (adds_assertEqual _ _).within

theorem adds_assertGapIf (outer name : String) (k : Nat) (enabled a b : Num p) {n : Nat}
    (hn : n ≤ Fp.capacity p) :
    Adds (3 * n + 7, 3 * n + 4) (assertGapIf outer name k enabled a b n) fun _ => True := by
  refine Adds.of_eq (m := (4, 4) + (3 * n + 3, 3 * n)) ?_ ?_
  · refine (adds_mask _ _ _ _ _).within.bind fun masked _ => ?_
    exact (adds_assertGap name k _ _ hn).within
  · refine Prod.ext ?_ ?_
    · show 4 + (3 * n + 3) = 3 * n + 7
      omega
    · show 4 + 3 * n = 3 * n + 4
      omega

end Num

namespace Comparator

/-- A comparison splits the shifted difference into one digit more; the result
    is the negation of the top one. -/
theorem adds_isLess (cmp : Comparator) (a b : Num p) (h : cmp.bits + 1 ≤ Fp.capacity p) :
    Adds (cmp.bits + 2, cmp.bits + 1) (cmp.isLess a b) fun r => ∃ x, r = .neg x := by
  refine Adds.map ?_
  refine (LinNum.adds_toBits _ h).mono ?_
  intro digits hdigits
  have hback : digits.back = digits[cmp.bits] := Vector.back_eq_getElem
  obtain ⟨x, hx⟩ := hdigits cmp.bits (Nat.lt_succ_self _)
  rw [hback, hx]
  exact ⟨x, rfl⟩

/-- An asserted comparison splits the difference alone. -/
theorem adds_assertIsLess (cmp : Comparator) (a b : Num p) (h : cmp.bits ≤ Fp.capacity p) :
    Adds (cmp.bits + 1, cmp.bits) (cmp.assertIsLess a b) fun _ => True := by
  refine Adds.map ?_
  exact (LinNum.adds_toBits _ h).mono fun _ _ => trivial

end Comparator

/-! ## Floor division -/

/-- One variable for each output, and nothing that binds it. -/
theorem Hint.adds_solve (h : Hint) {xs : List (Num p)} (hunknown : ∃ x ∈ xs, x.value = none) :
    Adds (0, h.numOutputs) (h.solve xs) fun ys => ys.length = h.numOutputs := by
  have houtput : ∀ v : Option (Fp p) × Nat, Adds (0, 1) (h.allocate v) fun _ => True := by
    intro v
    have halloc := (Num.adds_alloc v.1).mono (R := fun _ => True) fun _ _ => trivial
    exact halloc.mapError.within
  rw [h.solve_eq xs (outputValues_of_unknown h hunknown)]
  refine ((Adds.listMapM _ houtput).mono fun ys hys => ?_).of_eq ?_
  · rw [hys, List.length_zipIdx, List.length_replicate]
  · rw [List.length_zipIdx, List.length_replicate]
    simp

namespace Division

/-- The rows are those of every divisor, zero or not. -/
theorem adds_bind (hcap : quotientBits + 1 ≤ Fp.capacity p) (n d q r : Num p) :
    Adds (707, 699) (bind n d q r) fun _ => True := by
  have h64 : divisorBits ≤ Fp.capacity p := le_trans (by decide) hcap
  refine Adds.of_eq (m := (1, 1) + ((2, 2) + ((2, 2) + ((5, 4) + ((1, 1) + ((1, 1) + ((5, 4) +
    ((199, 196) + ((1, 1) + (490, 487)))))))))) ?_ rfl
  refine (Num.adds_constant _).within.bind fun zero _ => ?_
  refine (Num.adds_isZero _).within.bind fun isZero _ => ?_
  refine (Num.adds_isZero _).within.bind fun isNonzero _ => ?_
  refine (Num.adds_assertEqualIf _ _ _).within.bind fun _ _ => ?_
  refine (Num.adds_mul _ _).within.bind fun product _ => ?_
  refine (Num.adds_add _ _).within.bind fun recomposed _ => ?_
  refine (Num.adds_assertEqualIf _ _ _).within.bind fun _ _ => ?_
  refine (Num.adds_assertGapIf "lt" "b - a - 1" 1 _ _ _ h64).within.bind fun _ _ => ?_
  refine (Num.adds_constant _).within.bind fun bound _ => ?_
  exact (Num.adds_assertGapIf "lt" "b - a - 1" 1 _ _ _ hcap).within

/-- A floor division has its two outputs more than what binds them. -/
theorem adds_floorDiv (hcap : quotientBits + 1 ≤ Fp.capacity p) {x y : Num p}
    (hx : x.value = none) : Adds (707, 701) (floorDiv x y) fun _ => True := by
  have hunknown : ∃ z ∈ [x, y], z.value = none := ⟨x, List.mem_cons_self, hx⟩
  refine Adds.of_eq (m := (0, 2) + ((707, 699) + 0)) ?_ rfl
  refine (hint.adds_solve hunknown).within.bind fun outputs houts => ?_
  obtain ⟨q, r, rfl⟩ := List.length_eq_two.mp houts
  exact (adds_bind hcap x y q r).mapError.within.bind fun _ _ => .pure trivial

end Division

end RankOne
