import RankOne.Proofs.Evaluation

/-!
# Runs — what a circuit adds to a system

    A circuit only adds: the rows, values and counts that a system has before
    a run are still there after it.  `s ≤ s'` says so, and `s'.HoldsSince s z`
    says that an assignment satisfies the rows that were added in between.

    `body.Forces z Q` is the soundness judgement: whatever a recording run of
    `body` gives, an assignment that satisfies the rows of that run makes `Q`
    true of the result.  It has one rule for each primitive and each way of
    putting circuits together, so that a gadget's proof follows its text:
    collect what every part forces, then draw the conclusion.
-/

namespace RankOne

variable {p : Nat}

namespace System

/-- The second system has all that the first has, and perhaps more. -/
structure Le (s s' : System p) : Prop where
  rows : s.rows.toList <+: s'.rows.toList
  aux : s.aux.toList <+: s'.aux.toList
  inputs : s.inputs.toList <+: s'.inputs.toList
  numAux : s.numAux ≤ s'.numAux
  numInputs : s.numInputs ≤ s'.numInputs

instance : LE (System p) := ⟨Le⟩

instance : Preorder (System p) where
  le_refl _ := ⟨List.prefix_rfl, List.prefix_rfl, List.prefix_rfl, Nat.le_refl _, Nat.le_refl _⟩
  le_trans _ _ _ h h' :=
    ⟨h.rows.trans h'.rows, h.aux.trans h'.aux, h.inputs.trans h'.inputs,
      h.numAux.trans h'.numAux, h.numInputs.trans h'.numInputs⟩

theorem le_countAux (s : System p) : s ≤ s.countAux :=
  ⟨List.prefix_rfl, List.prefix_rfl, List.prefix_rfl, Nat.le_succ _, Nat.le_refl _⟩

theorem le_countInput (s : System p) : s ≤ s.countInput :=
  ⟨List.prefix_rfl, List.prefix_rfl, List.prefix_rfl, Nat.le_refl _, Nat.le_succ _⟩

theorem le_pushAux (v : Fp p) (s : System p) : s ≤ s.pushAux v :=
  ⟨List.prefix_rfl, ⟨[v], Array.toList_push.symm⟩, List.prefix_rfl, Nat.le_refl _, Nat.le_refl _⟩

theorem le_pushInput (v : Fp p) (s : System p) : s ≤ s.pushInput v :=
  ⟨List.prefix_rfl, List.prefix_rfl, ⟨[v], Array.toList_push.symm⟩, Nat.le_refl _, Nat.le_refl _⟩

/-- Names are no part of what a later system keeps. -/
theorem le_naming (s : System p) (n : Naming) : s ≤ { s with naming := n } :=
  ⟨List.prefix_rfl, List.prefix_rfl, List.prefix_rfl, Nat.le_refl _, Nat.le_refl _⟩

/-- Rows are only ever added. -/
theorem le_addRow (name : String) (a b c : LinComb p) (s : System p) :
    s ≤ s.addRow name a b c :=
  ⟨⟨[_], Array.toList_push.symm⟩, List.prefix_rfl, List.prefix_rfl, Nat.le_refl _, Nat.le_refl _⟩

/-- The rows of the second system that the first does not have. -/
def rowsSince (s s' : System p) : List (Row p) := s'.rows.toList.drop s.rows.size

/-- What was appended is what is there since. -/
theorem rowsSince_append {s s' : System p} {new : List (Row p)}
    (h : s'.rows.toList = s.rows.toList ++ new) : s.rowsSince s' = new := by
  show s'.rows.toList.drop s.rows.size = new
  rw [h, ← Array.length_toList, List.drop_left]

variable [Modulus p]

/-- The assignment satisfies the rows that `s'` has and `s` does not. -/
def HoldsSince (s' s : System p) (z : Variable → Fp p) : Prop :=
  ∀ row ∈ s.rowsSince s', row.Holds z

/-- The rows added in two steps are those of the first and those of the second. -/
theorem holdsSince_trans {s s₁ s₂ : System p} {z : Variable → Fp p} (h : s ≤ s₁) (h' : s₁ ≤ s₂) :
    s₂.HoldsSince s z ↔ s₁.HoldsSince s z ∧ s₂.HoldsSince s₁ z := by
  obtain ⟨new, hnew⟩ := h.rows
  obtain ⟨new', hnew'⟩ := h'.rows
  have h₁ : s.rowsSince s₁ = new := rowsSince_append hnew.symm
  have h₂ : s₁.rowsSince s₂ = new' := rowsSince_append hnew'.symm
  have h₃ : s.rowsSince s₂ = new ++ new' :=
    rowsSince_append (by rw [← hnew', ← hnew, List.append_assoc])
  unfold HoldsSince
  rw [h₁, h₂, h₃]
  exact List.forall_mem_append

/-- Where no rows were added there is nothing to satisfy. -/
theorem holdsSince_of_rows_eq {s s' : System p} (h : s'.rows = s.rows) (z : Variable → Fp p) :
    s'.HoldsSince s z := by
  have hnone : s'.rows.toList = s.rows.toList ++ [] := by rw [h, List.append_nil]
  intro row hrow
  rw [rowsSince_append hnone] at hrow
  exact absurd hrow List.not_mem_nil

/-- A row that was added is all that there is to satisfy. -/
theorem holdsSince_addRow {s : System p} {name : String} {a b c : LinComb p}
    {z : Variable → Fp p} :
    (s.addRow name a b c).HoldsSince s z ↔ a.eval z * b.eval z = c.eval z := by
  have hone : (s.addRow name a b c).rows.toList
      = s.rows.toList ++ [⟨s.naming.pathOf name, a, b, c⟩] := Array.toList_push
  rw [HoldsSince, rowsSince_append hone, List.forall_mem_singleton]
  rfl

/-- Rows that held before, and those that were added, are all there are. -/
theorem holds_of_holdsSince {s s' : System p} (h : s.rows.toList <+: s'.rows.toList)
    {z : Variable → Fp p} (hs : ∀ row ∈ s.rows, row.Holds z) (hsince : s'.HoldsSince s z) :
    ∀ row ∈ s'.rows, row.Holds z := by
  obtain ⟨new, hnew⟩ := h
  rw [HoldsSince, rowsSince_append hnew.symm] at hsince
  intro row hrow
  rw [← Array.mem_toList_iff, ← hnew, List.mem_append] at hrow
  rcases hrow with hrow | hrow
  · exact hs row (Array.mem_toList_iff.mp hrow)
  · exact hsince row hrow

/-- An assignment of the whole system satisfies what was added to it. -/
theorem holdsSince_of_holds (s : System p) {s' : System p} {z : Variable → Fp p}
    (h : ∀ row ∈ s'.rows, row.Holds z) : s'.HoldsSince s z :=
  fun row hrow => h row (Array.mem_toList_iff.mp (List.mem_of_mem_drop hrow))

/-- Only the rows matter to what was added. -/
theorem holdsSince_congr {s s' t t' : System p} (h : s.rows = t.rows) (h' : s'.rows = t'.rows)
    (z : Variable → Fp p) : s'.HoldsSince s z ↔ t'.HoldsSince t z := by
  unfold HoldsSince rowsSince
  rw [h, h']

end System

/-- A relation that does not look at the positions. -/
theorem forall₂_zipIdx {α β : Type} {R : α → β → Prop} {xs : List α} {ys : List β} {i : Nat} :
    List.Forall₂ (fun x y => R x.1 y) (xs.zipIdx i) ys ↔ List.Forall₂ R xs ys := by
  rw [← List.forall₂_map_left_iff (f := Prod.fst) (R := R), List.zipIdx_map_fst]

/-- Lists that are related have related entries, also where both end. -/
theorem forall₂_getD {α β : Type} {R : α → β → Prop} {xs : List α} {ys : List β}
    (h : List.Forall₂ R xs ys) {a : α} {b : β} (hab : R a b) (i : Nat) :
    R (xs.getD i a) (ys.getD i b) := by
  induction h generalizing i with
  | nil => exact hab
  | cons hxy _ ih =>
      cases i with
      | zero => exact hxy
      | succ i => exact ih i

/-- Every entry of a list is related to one of the other list. -/
theorem exists_mem_of_forall₂ {α β : Type} {R : α → β → Prop} {xs : List α} {ys : List β}
    (h : List.Forall₂ R xs ys) {x : α} (hx : x ∈ xs) : ∃ y ∈ ys, R x y := by
  induction h with
  | nil => exact nomatch hx
  | cons hxy _ ih =>
      rcases List.mem_cons.mp hx with rfl | hx
      · exact ⟨_, List.mem_cons_self, hxy⟩
      · obtain ⟨y, hy, hxy'⟩ := ih hx
        exact ⟨y, List.mem_cons_of_mem _ hy, hxy'⟩

/-- Related lists are related with their positions. -/
theorem forall₂_zipIdx_zipIdx {α β : Type} {R : α → β → Prop} {xs : List α} {ys : List β}
    (h : List.Forall₂ R xs ys) (i : Nat) :
    List.Forall₂ (fun x y => R x.1 y.1 ∧ x.2 = y.2) (xs.zipIdx i) (ys.zipIdx i) := by
  induction h generalizing i with
  | nil => exact .nil
  | cons hxy _ ih => exact .cons ⟨hxy, rfl⟩ (ih (i + 1))

/-- What holds of the entries of a vector and of one more holds of all. -/
theorem forall_push {α : Type} {n m : Nat} {Q : Fin m → α → Prop} (le : n + 1 ≤ m)
    {v : Vector α n} {a : α} (hv : ∀ i (hi : i < n), Q ⟨i, hi.trans le⟩ v[i])
    (ha : Q ⟨n, le⟩ a) (i : Nat) (hi : i < n + 1) :
    Q ⟨i, Nat.lt_of_lt_of_le hi le⟩ (v.push a)[i] := by
  rw [Vector.getElem_push]
  split
  · next hin => exact hv i hin
  · next hin =>
      have hi' : i = n := by omega
      subst hi'
      exact ha

namespace Build

variable {ε ε' α β γ : Type}

/-! ## Opening a circuit -/

theorem bind_apply (x : Build p ε α) (f : α → Build p ε β) (mode : Mode) (s : System p) :
    (x >>= f) mode s = match x mode s with
      | .ok a s' => f a mode s'
      | .error e s' => .error e s' := by
  show EStateM.bind (x mode) (fun a => f a mode) s = _
  rw [EStateM.bind]
  cases x mode s with
  | ok a s' => rfl
  | error e s' => rfl

/-- A run of two circuits in a row is a run of the first and then one of the
    second. -/
theorem bind_eq_ok {x : Build p ε α} {f : α → Build p ε β} {mode : Mode} {s s' : System p}
    {b : β} : (x >>= f) mode s = .ok b s' ↔
      ∃ a s₁, x mode s = .ok a s₁ ∧ f a mode s₁ = .ok b s' := by
  rw [bind_apply]
  cases x mode s with
  | ok a s₁ =>
      constructor
      · intro h
        exact ⟨a, s₁, rfl, h⟩
      · rintro ⟨_, _, h, h'⟩
        cases h
        exact h'
  | error e s₁ =>
      constructor
      · intro h
        exact nomatch h
      · rintro ⟨_, _, h, _⟩
        exact nomatch h

theorem map_eq_bind (g : α → β) (x : Build p ε α) : g <$> x = x >>= fun a => pure (g a) := rfl

/-- A change that leads on does so whether or not it is recorded. -/
theorem recording_le {change : System p → System p} (h : ∀ s, s ≤ change s) (mode : Mode)
    (s : System p) : s ≤ recording mode change s := by
  rw [recording]
  split
  · exact h s
  · exact le_rfl

/-- A change that keeps the rows keeps them whether or not it is recorded. -/
theorem recording_rows (change : System p → System p) (h : ∀ s, (change s).rows = s.rows)
    (mode : Mode) (s : System p) : (recording mode change s).rows = s.rows := by
  rw [recording]
  split
  · exact h s
  · rfl

/-- Another type of failures has the same successes. -/
theorem mapError_eq_ok {f : ε → ε'} {x : Build p ε α} {mode : Mode} {s s' : System p} {a : α} :
    mapError f x mode s = .ok a s' ↔ x mode s = .ok a s' := by
  rw [mapError]
  cases x mode s with
  | ok b t =>
      constructor
      · intro h
        cases h
        rfl
      · intro h
        cases h
        rfl
  | error e t =>
      constructor
      · intro h
        exact nomatch h
      · intro h
        exact nomatch h

/-- A run in a namespace is a run of the body between opening and closing it. -/
theorem within_eq_ok {name : String} {x : Build p ε α} {mode : Mode} {s s' : System p} {a : α} :
    within name x mode s = .ok a s' ↔
      ∃ s₁, x mode (recording mode (·.enter name) s) = .ok a s₁ ∧
        s' = recording mode (·.leave) s₁ := by
  rw [within]
  cases x mode (recording mode (·.enter name) s) with
  | ok b t =>
      constructor
      · intro h
        cases h
        exact ⟨t, rfl, rfl⟩
      · rintro ⟨_, h, rfl⟩
        cases h
        rfl
  | error e t =>
      constructor
      · intro h
        exact nomatch h
      · rintro ⟨_, h, _⟩
        exact nomatch h

theorem within_map (name : String) (g : α → β) (x : Build p ε α) :
    within name (g <$> x) = g <$> within name x := by
  funext mode s
  rw [map_eq_bind, map_eq_bind, bind_apply]
  unfold within
  rw [bind_apply]
  cases x mode (recording mode (·.enter name) s) with
  | ok a t => rfl
  | error e t => rfl

/-- Runs `body` in namespaces, the outermost of which is named first. -/
def inside (path : List String) (body : Build p ε α) : Build p ε α := path.foldr within body

/-! ## What every result has -/

/-- Whatever a run of the circuit in one mode gives has `Q`. -/
def GivesIn (mode : Mode) (body : Build p ε α) (Q : α → Prop) : Prop :=
  ∀ (s s' : System p) (a : α), body mode s = .ok a s' → Q a

/-- Whatever a run of the circuit gives has `Q`, in any mode. -/
def Gives (body : Build p ε α) (Q : α → Prop) : Prop :=
  ∀ (mode : Mode) (s s' : System p) (a : α), body mode s = .ok a s' → Q a

namespace GivesIn

variable {mode : Mode}

/-- Nothing has to be said of a result. -/
theorem any (body : Build p ε α) : GivesIn mode body fun _ => True := fun _ _ _ _ => trivial

/-- A result may be said to have less. -/
theorem mono {body : Build p ε α} {Q R : α → Prop} (h : GivesIn mode body Q)
    (hQR : ∀ a, Q a → R a) : GivesIn mode body R :=
  fun s s' a hrun => hQR a (h s s' a hrun)

theorem pure {a : α} {Q : α → Prop} (h : Q a) : GivesIn mode (pure a : Build p ε α) Q := by
  intro s s' b hrun
  cases hrun
  exact h

/-- A run that fails gives no result. -/
theorem throw (e : ε) (Q : α → Prop) : GivesIn mode (throw e : Build p ε α) Q := by
  intro s s' b hrun
  exact nomatch hrun

/-- What the second circuit gives may depend on what the first one does. -/
theorem bind {x : Build p ε α} {f : α → Build p ε β} {Q : α → Prop} {R : β → Prop}
    (hx : GivesIn mode x Q) (hf : ∀ a, Q a → GivesIn mode (f a) R) :
    GivesIn mode (x >>= f) R := by
  intro s s' b hrun
  obtain ⟨a, s₁, hrun₁, hrun₂⟩ := bind_eq_ok.mp hrun
  exact hf a (hx s s₁ a hrun₁) s₁ s' b hrun₂

theorem map {x : Build p ε α} {g : α → β} {Q : β → Prop}
    (hx : GivesIn mode x fun a => Q (g a)) : GivesIn mode (g <$> x) Q :=
  hx.bind fun _ => pure

theorem mapError {f : ε → ε'} {x : Build p ε α} {Q : α → Prop} (hx : GivesIn mode x Q) :
    GivesIn mode (mapError f x) Q :=
  fun s s' a hrun => hx s s' a (mapError_eq_ok.mp hrun)

theorem within {name : String} {x : Build p ε α} {Q : α → Prop} (hx : GivesIn mode x Q) :
    GivesIn mode (within name x) Q := by
  intro s s' a hrun
  obtain ⟨s₁, hrun₁, _⟩ := within_eq_ok.mp hrun
  exact hx _ s₁ a hrun₁

theorem inside {x : Build p ε α} {Q : α → Prop} (hx : GivesIn mode x Q) :
    (path : List String) → GivesIn mode (inside path x) Q
  | [] => hx
  | _ :: path => (GivesIn.inside hx path).within

theorem ite {c : Prop} [Decidable c] {x y : Build p ε α} {Q : α → Prop}
    (hx : c → GivesIn mode x Q) (hy : ¬c → GivesIn mode y Q) :
    GivesIn mode (if c then x else y) Q := by
  split
  · next h => exact hx h
  · next h => exact hy h

/-- A variable has the value that was asked for; only a run that does not solve
    may go on without it. -/
theorem aux (name : String) (value : Option (Fp p)) :
    GivesIn mode (aux name value) fun x =>
      (mode.solves = false ∧ x.value = none) ∨ (x.value = value ∧ value ≠ none) := by
  intro s s' x hrun
  unfold Build.aux at hrun
  split at hrun
  · next hsolves =>
      cases hrun
      exact .inl ⟨hsolves, rfl⟩
  · cases hrun
    exact .inr ⟨rfl, nofun⟩
  · exact nomatch hrun

/-- By induction on the number of rounds. -/
private theorem tabulateTo {m : Nat} {body : Fin m → Build p ε α} {Q : Fin m → α → Prop}
    (h : ∀ i, GivesIn mode (body i) (Q i)) (n : Nat) (le : n ≤ m) :
    GivesIn mode (tabulateTo body n le) fun v =>
      ∀ i (hi : i < n), Q ⟨i, Nat.lt_of_lt_of_le hi le⟩ v[i] := by
  induction n with
  | zero => exact pure fun i hi => absurd hi (Nat.not_lt_zero i)
  | succ n ih =>
      refine (ih (by omega)).bind fun v hv => (h ⟨n, le⟩).bind fun a ha => pure ?_
      exact forall_push le hv ha

/-- Every round of a loop gives its own. -/
theorem tabulate {n : Nat} {body : Fin n → Build p ε α} {Q : Fin n → α → Prop}
    (h : ∀ i, GivesIn mode (body i) (Q i)) :
    GivesIn mode (tabulate body) fun v => ∀ i (hi : i < n), Q ⟨i, hi⟩ v[i] :=
  tabulateTo h n (Nat.le_refl n)

/-- Results are collected element by element. -/
theorem listMapM {body : α → Build p ε β} {Q : α → β → Prop} (xs : List α)
    (h : ∀ x, GivesIn mode (body x) (Q x)) :
    GivesIn mode (xs.mapM body) fun ys => List.Forall₂ Q xs ys := by
  induction xs with
  | nil => exact pure .nil
  | cons x rest ih =>
      rw [List.mapM_cons]
      exact (h x).bind fun y hy => ih.bind fun ys hys => pure (.cons hy hys)

end GivesIn

namespace Gives

theorem any (body : Build p ε α) : Gives body fun _ => True := fun _ => GivesIn.any body

theorem mono {body : Build p ε α} {Q R : α → Prop} (h : Gives body Q) (hQR : ∀ a, Q a → R a) :
    Gives body R :=
  fun mode => GivesIn.mono (h mode) hQR

theorem pure {a : α} {Q : α → Prop} (h : Q a) : Gives (pure a : Build p ε α) Q :=
  fun _ => GivesIn.pure h

theorem throw (e : ε) (Q : α → Prop) : Gives (throw e : Build p ε α) Q :=
  fun _ => GivesIn.throw e Q

theorem bind {x : Build p ε α} {f : α → Build p ε β} {Q : α → Prop} {R : β → Prop}
    (hx : Gives x Q) (hf : ∀ a, Q a → Gives (f a) R) : Gives (x >>= f) R :=
  fun mode => GivesIn.bind (hx mode) fun a ha => hf a ha mode

theorem map {x : Build p ε α} {g : α → β} {Q : β → Prop} (hx : Gives x fun a => Q (g a)) :
    Gives (g <$> x) Q :=
  fun mode => GivesIn.map (hx mode)

theorem mapError {f : ε → ε'} {x : Build p ε α} {Q : α → Prop} (hx : Gives x Q) :
    Gives (mapError f x) Q :=
  fun mode => GivesIn.mapError (hx mode)

theorem within {name : String} {x : Build p ε α} {Q : α → Prop} (hx : Gives x Q) :
    Gives (within name x) Q :=
  fun mode => GivesIn.within (hx mode)

theorem inside {x : Build p ε α} {Q : α → Prop} (hx : Gives x Q) (path : List String) :
    Gives (inside path x) Q :=
  fun mode => GivesIn.inside (hx mode) path

theorem ite {c : Prop} [Decidable c] {x y : Build p ε α} {Q : α → Prop}
    (hx : c → Gives x Q) (hy : ¬c → Gives y Q) : Gives (if c then x else y) Q :=
  fun mode => GivesIn.ite (fun h => hx h mode) fun h => hy h mode

theorem listMapM {body : α → Build p ε β} (xs : List α) :
    Gives (xs.mapM body) fun ys => ys.length = xs.length := by
  intro mode
  have h : GivesIn mode (xs.mapM body) fun ys => List.Forall₂ (fun _ _ => True) xs ys :=
    GivesIn.listMapM xs fun x => GivesIn.any (body x)
  exact h.mono fun ys hys => hys.length_eq.symm

end Gives

/-! ## What satisfied rows force -/

variable [Modulus p] {z : Variable → Fp p}

/-- An assignment that satisfies the rows of a recording run makes `Q` true of
    its result. -/
def Forces (z : Variable → Fp p) (body : Build p ε α) (Q : α → Prop) : Prop :=
  ∀ (mode : Mode) (s s' : System p) (a : α), mode.records = true → body mode s = .ok a s' →
    s ≤ s' ∧ (s'.HoldsSince s z → Q a)

namespace Forces

theorem mono {body : Build p ε α} {Q R : α → Prop} (h : Forces z body Q) (hQR : ∀ a, Q a → R a) :
    Forces z body R := by
  intro mode s s' a hrec hrun
  obtain ⟨hle, hQ⟩ := h mode s s' a hrec hrun
  exact ⟨hle, fun hz => hQR a (hQ hz)⟩

/-- What every result has may be added. -/
theorem and_gives {body : Build p ε α} {Q R : α → Prop} (h : Forces z body Q)
    (hR : Gives body R) : Forces z body fun a => Q a ∧ R a := by
  intro mode s s' a hrec hrun
  obtain ⟨hle, hQ⟩ := h mode s s' a hrec hrun
  exact ⟨hle, fun hz => ⟨hQ hz, hR mode s s' a hrun⟩⟩

theorem pure {a : α} {Q : α → Prop} (h : Q a) : Forces z (pure a : Build p ε α) Q := by
  intro mode s s' b _ hrun
  cases hrun
  exact ⟨le_rfl, fun _ => h⟩

/-- A circuit that fails adds no rows that could be satisfied. -/
theorem throw (e : ε) (Q : α → Prop) : Forces z (throw e : Build p ε α) Q := by
  intro mode s s' b _ hrun
  exact nomatch hrun

/-- What the second circuit forces may depend on what the first one does. -/
theorem bind {x : Build p ε α} {f : α → Build p ε β} {Q : α → Prop} {R : β → Prop}
    (hx : Forces z x Q) (hf : ∀ a, Forces z (f a) fun b => Q a → R b) :
    Forces z (x >>= f) R := by
  intro mode s s' b hrec hrun
  obtain ⟨a, s₁, hrun₁, hrun₂⟩ := bind_eq_ok.mp hrun
  obtain ⟨hle₁, hQ⟩ := hx mode s s₁ a hrec hrun₁
  obtain ⟨hle₂, hR⟩ := hf a mode s₁ s' b hrec hrun₂
  refine ⟨hle₁.trans hle₂, fun hz => ?_⟩
  -- the rows of both are those of the one and those of the other
  obtain ⟨hz₁, hz₂⟩ := (System.holdsSince_trans hle₁ hle₂).mp hz
  exact hR hz₂ (hQ hz₁)

/-- A result that is made of another one inherits what is forced. -/
theorem map {x : Build p ε α} {g : α → β} {Q : β → Prop} (hx : Forces z x fun a => Q (g a)) :
    Forces z (g <$> x) Q :=
  hx.bind fun _ => pure id

theorem mapError {f : ε → ε'} {x : Build p ε α} {Q : α → Prop} (hx : Forces z x Q) :
    Forces z (mapError f x) Q := by
  intro mode s s' a hrec hrun
  exact hx mode s s' a hrec (mapError_eq_ok.mp hrun)

/-- A namespace adds no rows. -/
theorem within {name : String} {x : Build p ε α} {Q : α → Prop} (hx : Forces z x Q) :
    Forces z (within name x) Q := by
  intro mode s s' a hrec hrun
  obtain ⟨s₁, hrun₁, rfl⟩ := within_eq_ok.mp hrun
  obtain ⟨hle, hQ⟩ := hx mode _ s₁ a hrec hrun₁
  have henter : s ≤ recording mode (·.enter name) s := recording_le (fun s => s.le_naming _) mode s
  have hleave : s₁ ≤ recording mode (·.leave) s₁ := recording_le (fun s => s.le_naming _) mode s₁
  refine ⟨(henter.trans hle).trans hleave, fun hz => hQ ?_⟩
  -- entering and leaving change the names only
  refine (System.holdsSince_congr ?_ ?_ z).mp hz
  · exact (recording_rows (·.enter name) (fun _ => rfl) mode s).symm
  · exact recording_rows (·.leave) (fun _ => rfl) mode s₁

theorem inside {x : Build p ε α} {Q : α → Prop} (hx : Forces z x Q) :
    (path : List String) → Forces z (inside path x) Q
  | [] => hx
  | _ :: path => (Forces.inside hx path).within

/-- The row is recorded, and forces what it says. -/
theorem enforce (name : String) (a b c : LinComb p) :
    Forces z (enforce name a b c : Build p ε Unit) fun _ => a.eval z * b.eval z = c.eval z := by
  intro mode s s' u hrec hrun
  cases hrun
  have h : recording mode (·.addRow name a b c) s = s.addRow name a b c := if_pos hrec
  rw [h]
  exact ⟨s.le_addRow name a b c, System.holdsSince_addRow.mp⟩

/-- A circuit, one row about its result, and what is made of the result. -/
theorem row {name : String} {x : Build p ε α} {a b c : α → LinComb p} {g : α → β}
    {Q : α → Prop} {R : β → Prop} (hx : Forces z x Q)
    (h : ∀ r, Q r → (a r).eval z * (b r).eval z = (c r).eval z → R (g r)) :
    Forces z (do let r ← x; Build.enforce name (a r) (b r) (c r); return g r) R := by
  refine hx.bind fun r => ?_
  refine (Forces.enforce name (a r) (b r) (c r)).bind fun _ => pure ?_
  intro hrow hr
  exact h r hr hrow

/-- A fresh variable may be worth anything. -/
theorem aux (name : String) (value : Option (Fp p)) :
    Forces z (aux name value) fun _ => True := by
  intro mode s s' x _ hrun
  refine ⟨?_, fun _ => trivial⟩
  unfold Build.aux at hrun
  have hclaim : ∀ t : System p, t ≤ recording mode (·.claim name) t :=
    recording_le (fun s => s.le_naming _) mode
  split at hrun
  · cases hrun
    exact s.le_countAux.trans (hclaim _)
  · cases hrun
    exact (s.le_countAux.trans (System.le_pushAux _ _)).trans (hclaim _)
  · exact nomatch hrun

theorem ite {c : Prop} [Decidable c] {x y : Build p ε α} {Q : α → Prop}
    (hx : c → Forces z x Q) (hy : ¬c → Forces z y Q) : Forces z (if c then x else y) Q := by
  split
  · next h => exact hx h
  · next h => exact hy h

/-- By induction on the number of rounds; the rows of all rounds hold at
    once. -/
private theorem tabulateTo {m : Nat} {body : Fin m → Build p ε α} {Q : Fin m → α → Prop}
    (h : ∀ i, Forces z (body i) (Q i)) (n : Nat) (le : n ≤ m) :
    Forces z (tabulateTo body n le) fun v =>
      ∀ i (hi : i < n), Q ⟨i, Nat.lt_of_lt_of_le hi le⟩ v[i] := by
  induction n with
  | zero => exact pure fun i hi => absurd hi (Nat.not_lt_zero i)
  | succ n ih =>
      refine (ih (by omega)).bind fun v => (h ⟨n, le⟩).bind fun a => pure ?_
      intro ha hv
      exact forall_push le hv ha

/-- The rows of a loop force of every round what they force of one. -/
theorem tabulate {n : Nat} {body : Fin n → Build p ε α} {Q : Fin n → α → Prop}
    (h : ∀ i, Forces z (body i) (Q i)) :
    Forces z (tabulate body) fun v => ∀ i (hi : i < n), Q ⟨i, hi⟩ v[i] :=
  tabulateTo h n (Nat.le_refl n)

/-- The rows for a list force of each result what they force of one. -/
theorem listMapM {body : α → Build p ε β} {Q : α → β → Prop} (xs : List α)
    (h : ∀ x ∈ xs, Forces z (body x) (Q x)) :
    Forces z (xs.mapM body) fun ys => List.Forall₂ Q xs ys := by
  induction xs with
  | nil => exact pure List.Forall₂.nil
  | cons x rest ih =>
      rw [List.mapM_cons]
      refine (h x List.mem_cons_self).bind fun y => ?_
      refine (ih fun x' hx' => h x' (List.mem_cons_of_mem _ hx')).bind fun ys => pure ?_
      intro hys hy
      exact List.Forall₂.cons hy hys

/-- The rows for a list force the condition of every element. -/
theorem listForM {body : α → Build p ε Unit} {Q : α → Prop} (xs : List α)
    (h : ∀ x ∈ xs, Forces z (body x) fun _ => Q x) :
    Forces z (xs.forM body) fun _ => ∀ x ∈ xs, Q x := by
  induction xs with
  | nil => exact pure fun x hx => absurd hx List.not_mem_nil
  | cons x rest ih =>
      refine (h x List.mem_cons_self).bind fun _ => ?_
      refine (ih fun x' hx' => h x' (List.mem_cons_of_mem _ hx')).mono ?_
      intro _ hrest hx
      exact List.forall_mem_cons.mpr ⟨hx, hrest⟩

end Forces

end Build

end RankOne
