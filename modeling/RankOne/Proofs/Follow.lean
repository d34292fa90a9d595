import RankOne.Proofs.Honest

/-!
# Following — runs of one circuit in different modes

    A circuit never asks which way it is run.  `Follows m m' x y R` makes that
    a statement about two runs: whenever the leader `y` succeeds in mode `m'`,
    the follower `x` succeeds in mode `m` from a system related to the
    leader's, the two systems are related again, and the results are related
    by `R`.  Related in which way is left open: `System.Kept` lists what the
    four primitives ask of a relation, and a circuit follows in all of these
    at once.

    The relation at hand most of the time is `System.Beside`: the systems have
    counted alike, hold the same rows and paths if both record, and the same
    values if the follower computes any.

    The relations between results ask for the same structure everywhere, and
    for the same values only where the follower needs them.
-/

namespace RankOne

variable {p : Nat}

/-- The first mode asks for values only where the second does. -/
class Mode.AsksLess (m m' : Mode) : Prop where
  solves : m.solves = true → m'.solves = true

instance (m' : Mode) : Mode.AsksLess .compiling m' := ⟨fun h => nomatch h⟩

instance (m : Mode) : Mode.AsksLess m .tracing := ⟨fun _ => rfl⟩

/-- Two systems that a follower and its leader may have reached. -/
structure System.Beside (m m' : Mode) (s s' : System p) : Prop where
  numAux : s.numAux = s'.numAux
  numInputs : s.numInputs = s'.numInputs
  rows : m.records = true → m'.records = true → s.rows = s'.rows
  naming : m.records = true → m'.records = true → s.naming = s'.naming
  aux : m.solves = true → s.aux = s'.aux
  inputs : m.solves = true → s.inputs = s'.inputs

/-- One more private variable, with its value in a run that solves. -/
def System.growAux (m : Mode) (value : Option (Fp p)) (s : System p) : System p :=
  match m.solves, value with
  | true, some v => s.countAux.pushAux v
  | _, _ => s.countAux

/-- One more public input, with its value in a run that solves. -/
def System.growInput (m : Mode) (value : Option (Fp p)) (s : System p) : System p :=
  match m.solves, value with
  | true, some v => s.countInput.pushInput v
  | _, _ => s.countInput

namespace System

variable {m : Mode} {s : System p}

/-- A run that does not solve only counts a variable. -/
theorem growAux_of_not (h : m.solves = false) (v : Option (Fp p)) :
    s.growAux m v = s.countAux := by
  simp only [growAux, h]

theorem growInput_of_not (h : m.solves = false) (v : Option (Fp p)) :
    s.growInput m v = s.countInput := by
  simp only [growInput, h]

/-- A run that solves also keeps its value. -/
theorem growAux_some (h : m.solves = true) (v : Fp p) :
    s.growAux m (some v) = s.countAux.pushAux v := by
  simp only [growAux, h]

theorem growInput_some (h : m.solves = true) (v : Fp p) :
    s.growInput m (some v) = s.countInput.pushInput v := by
  simp only [growInput, h]

/-- Either way a variable is counted. -/
theorem growAux_cases (m : Mode) (v : Option (Fp p)) (s : System p) :
    s.growAux m v = s.countAux ∨ ∃ x, s.growAux m v = s.countAux.pushAux x := by
  unfold growAux
  split
  · exact Or.inr ⟨_, rfl⟩
  · exact Or.inl rfl

theorem growInput_cases (m : Mode) (v : Option (Fp p)) (s : System p) :
    s.growInput m v = s.countInput ∨ ∃ x, s.growInput m v = s.countInput.pushInput x := by
  unfold growInput
  split
  · exact Or.inr ⟨_, rfl⟩
  · exact Or.inl rfl

end System

/-- A relation between the systems of a follower and of its leader which every
    primitive keeps that both run. -/
structure System.Kept (m m' : Mode) (S : System p → System p → Prop) : Prop where
  numAux : ∀ {s s' : System p}, S s s' → s.numAux = s'.numAux
  numInputs : ∀ {s s' : System p}, S s s' → s.numInputs = s'.numInputs
  rename : ∀ {s s' : System p}, S s s' → ∀ f : Naming → Naming,
    S (Build.recording m (fun s => { s with naming := f s.naming }) s)
      (Build.recording m' (fun s => { s with naming := f s.naming }) s')
  addRow : ∀ {s s' : System p}, S s s' → ∀ name a b c,
    S (Build.recording m (·.addRow name a b c) s) (Build.recording m' (·.addRow name a b c) s')
  growAux : ∀ {s s' : System p}, S s s' → ∀ {u v : Option (Fp p)}, (m.solves = true → u = v) →
    (m'.solves = true → v ≠ none) → S (s.growAux m u) (s'.growAux m' v)
  growInput : ∀ {s s' : System p}, S s s' → ∀ {u v : Option (Fp p)}, (m.solves = true → u = v) →
    (m'.solves = true → v ≠ none) → S (s.growInput m u) (s'.growInput m' v)

/-- One variable, and a value that the follower knows at most where the leader
    does, and always where it computes values. -/
structure Num.Alike (m : Mode) (x y : Num p) : Prop where
  var : x.var = y.var
  value : x.value = none ∨ x.value = y.value
  solved : m.solves = true → x.value = y.value

namespace System.Beside

variable {m m' : Mode} {s s' : System p}

/-- A change of the rows and of the names is seen where both runs record. -/
private theorem change (hs : s.Beside m m' s') {rows rows' : Array (Row p)}
    {naming naming' : Naming} (hrows : m.records = true → m'.records = true → rows = rows')
    (hnaming : m.records = true → m'.records = true → naming = naming') :
    (Build.recording m (fun s => { s with rows := rows, naming := naming }) s).Beside m m'
      (Build.recording m' (fun s => { s with rows := rows', naming := naming' }) s') := by
  unfold Build.recording
  by_cases hm : m.records = true
  · by_cases hm' : m'.records = true
    · rw [if_pos hm, if_pos hm']
      exact ⟨hs.numAux, hs.numInputs, hrows, hnaming, hs.aux, hs.inputs⟩
    · rw [if_pos hm, if_neg hm']
      exact ⟨hs.numAux, hs.numInputs, fun _ h' => absurd h' hm', fun _ h' => absurd h' hm',
        hs.aux, hs.inputs⟩
  · by_cases hm' : m'.records = true
    · rw [if_neg hm, if_pos hm']
      exact ⟨hs.numAux, hs.numInputs, fun h _ => absurd h hm, fun h _ => absurd h hm,
        hs.aux, hs.inputs⟩
    · rw [if_neg hm, if_neg hm']
      exact hs

/-- A change of paths that both runs make leaves them beside each other. -/
theorem rename (hs : s.Beside m m' s') (f : Naming → Naming) :
    (Build.recording m (fun s => { s with naming := f s.naming }) s).Beside m m'
      (Build.recording m' (fun s => { s with naming := f s.naming }) s') :=
  hs.change hs.rows fun h h' => congrArg f (hs.naming h h')

/-- A row is added to both systems. -/
theorem addRow (hs : s.Beside m m' s') (name : String) (a b c : LinComb p) :
    (Build.recording m (·.addRow name a b c) s).Beside m m'
      (Build.recording m' (·.addRow name a b c) s') := by
  refine hs.change (fun h h' => ?_) fun h h' => congrArg (Naming.claim name) (hs.naming h h')
  show s.rows.push ⟨s.naming.pathOf name, a, b, c⟩ = s'.rows.push ⟨s'.naming.pathOf name, a, b, c⟩
  rw [hs.rows h h', hs.naming h h']

/-- A follower that keeps a value keeps that of its leader. -/
private theorem solving [hm : Mode.AsksLess m m'] {u v : Option (Fp p)}
    (huv : m.solves = true → u = v) (hv : m'.solves = true → v ≠ none) :
    m.solves = false ∨ m.solves = true ∧ m'.solves = true ∧ ∃ x, u = some x ∧ v = some x := by
  cases hsolves : m.solves with
  | false => exact Or.inl rfl
  | true =>
      have hsolves' := hm.solves hsolves
      obtain ⟨x, hx⟩ := Option.ne_none_iff_exists'.mp (hv hsolves')
      exact Or.inr ⟨rfl, hsolves', x, (huv hsolves).trans hx, hx⟩

/-- To be beside one another is kept by everything that circuits do. -/
theorem kept (m m' : Mode) [Mode.AsksLess m m'] :
    System.Kept m m' (System.Beside m m' : System p → System p → Prop) where
  numAux hs := hs.numAux
  numInputs hs := hs.numInputs
  rename hs := hs.rename
  addRow hs := hs.addRow
  growAux {s s'} hs u v huv hv := by
    have hcount : s.numAux + 1 = s'.numAux + 1 := congrArg (· + 1) hs.numAux
    rcases solving huv hv with hm | ⟨hm, hm', x, rfl, rfl⟩
    -- only the leader keeps a value, if anyone does; the follower is not asked about it
    · have hnone : m.solves ≠ true := by simp [hm]
      rw [growAux_of_not hm]
      rcases growAux_cases m' v s' with h | ⟨x, h⟩
      · rw [h]
        exact ⟨hcount, hs.numInputs, hs.rows, hs.naming, (absurd · hnone), (absurd · hnone)⟩
      · rw [h]
        exact ⟨hcount, hs.numInputs, hs.rows, hs.naming, (absurd · hnone), (absurd · hnone)⟩
    · rw [growAux_some hm, growAux_some hm']
      exact ⟨hcount, hs.numInputs, hs.rows, hs.naming, fun h => congrArg (·.push x) (hs.aux h),
        hs.inputs⟩
  growInput {s s'} hs u v huv hv := by
    have hcount : s.numInputs + 1 = s'.numInputs + 1 := congrArg (· + 1) hs.numInputs
    rcases solving huv hv with hm | ⟨hm, hm', x, rfl, rfl⟩
    · have hnone : m.solves ≠ true := by simp [hm]
      rw [growInput_of_not hm]
      rcases growInput_cases m' v s' with h | ⟨x, h⟩
      · rw [h]
        exact ⟨hs.numAux, hcount, hs.rows, hs.naming, (absurd · hnone), (absurd · hnone)⟩
      · rw [h]
        exact ⟨hs.numAux, hcount, hs.rows, hs.naming, (absurd · hnone), (absurd · hnone)⟩
    · rw [growInput_some hm, growInput_some hm']
      exact ⟨hs.numAux, hcount, hs.rows, hs.naming, hs.aux,
        fun h => congrArg (·.push x) (hs.inputs h)⟩

end System.Beside

namespace Build

variable {m m' : Mode} {ε ε' δ δ' α α' β β' : Type}

/-- An allocation succeeds unless a value is asked for that is not known. -/
theorem aux_eq_ok {m : Mode} {name : String} {v : Option (Fp p)} {s t : System p} {x : Num p} :
    aux name v m s = .ok x t ↔ (m.solves = true → v ≠ none) ∧
      x = ⟨.aux s.numAux, if m.solves then v else none⟩ ∧
      t = recording m (·.claim name) (s.growAux m v) := by
  unfold aux System.growAux
  cases m.solves with
  | false => simp [eq_comm]
  | true =>
      cases v with
      | none => simp
      | some v => simp [eq_comm]

theorem input_eq_ok {m : Mode} {name : String} {v : Option (Fp p)} {s t : System p} {x : Num p} :
    input name v m s = .ok x t ↔ (m.solves = true → v ≠ none) ∧
      x = ⟨.input (s.numInputs + 1), if m.solves then v else none⟩ ∧
      t = recording m (·.claim name) (s.growInput m v) := by
  unfold input System.growInput
  cases m.solves with
  | false => simp [eq_comm]
  | true =>
      cases v with
      | none => simp
      | some v => simp [eq_comm]

/-- The follower `x` succeeds wherever the leader `y` does, with related
    results. -/
def Follows (m m' : Mode) (x : Build p ε α) (y : Build p δ β) (R : α → β → Prop) : Prop :=
  ∀ S, System.Kept m m' S → ∀ (s s' t' : System p) (b : β), S s s' → y m' s' = .ok b t' →
    ∃ a t, x m s = .ok a t ∧ S t t' ∧ R a b

namespace Follows

/-- A follower's system stays beside its leader's. -/
theorem beside [Mode.AsksLess m m'] {x : Build p ε α} {y : Build p δ β} {R : α → β → Prop}
    (h : Follows m m' x y R) {s s' t' : System p} {b : β} (hs : s.Beside m m' s')
    (hrun : y m' s' = .ok b t') : ∃ a t, x m s = .ok a t ∧ t.Beside m m' t' ∧ R a b :=
  h _ (System.Beside.kept m m') s s' t' b hs hrun

theorem mono {x : Build p ε α} {y : Build p δ β} {R R' : α → β → Prop}
    (h : Follows m m' x y R) (hR : ∀ a b, R a b → R' a b) : Follows m m' x y R' := by
  intro S hS s s' t' b hs hrun
  obtain ⟨a, t, hrun', ht, hab⟩ := h S hS s s' t' b hs hrun
  exact ⟨a, t, hrun', ht, hR a b hab⟩

theorem pure {a : α} {b : β} {R : α → β → Prop} (h : R a b) :
    Follows m m' (pure a : Build p ε α) (pure b : Build p δ β) R := by
  intro S _ s s' t' b' hs hrun
  cases hrun
  exact ⟨a, s, rfl, hs, h⟩

/-- Nothing is asked of a follower whose leader fails. -/
theorem throw {x : Build p ε α} {e : δ} {R : α → β → Prop} :
    Follows m m' x (throw e : Build p δ β) R := by
  intro S _ s s' t' b hs hrun
  exact nomatch hrun

/-- What comes second may rely on how the first results are related. -/
theorem bind {x : Build p ε α} {y : Build p δ β} {f : α → Build p ε α'} {g : β → Build p δ β'}
    {R : α → β → Prop} {R' : α' → β' → Prop} (h : Follows m m' x y R)
    (hfg : ∀ a b, R a b → Follows m m' (f a) (g b) R') :
    Follows m m' (x >>= f) (y >>= g) R' := by
  intro S hS s s' t' b hs hrun
  obtain ⟨b₁, t₁', hrun₁, hrun₂⟩ := bind_eq_ok.mp hrun
  obtain ⟨a₁, t₁, hx, ht₁, hab₁⟩ := h S hS s s' t₁' b₁ hs hrun₁
  obtain ⟨a, t, hf, ht, hab⟩ := hfg a₁ b₁ hab₁ S hS t₁ t₁' t' b ht₁ hrun₂
  exact ⟨a, t, bind_eq_ok.mpr ⟨a₁, t₁, hx, hf⟩, ht, hab⟩

theorem map {x : Build p ε α} {y : Build p δ β} {f : α → α'} {g : β → β'} {R : α' → β' → Prop}
    (h : Follows m m' x y fun a b => R (f a) (g b)) : Follows m m' (f <$> x) (g <$> y) R :=
  h.bind (f := fun a => Pure.pure (f a)) (g := fun b => Pure.pure (g b)) fun _ _ hab => pure hab

theorem mapError {x : Build p ε α} {y : Build p δ β} {f : ε → ε'} {g : δ → δ'}
    {R : α → β → Prop} (h : Follows m m' x y R) :
    Follows m m' (mapError f x) (mapError g y) R := by
  intro S hS s s' t' b hs hrun
  obtain ⟨a, t, hx, hrest⟩ := h S hS s s' t' b hs (mapError_eq_ok.mp hrun)
  exact ⟨a, t, mapError_eq_ok.mpr hx, hrest⟩

/-- Both runs open and close the namespace. -/
theorem within {name : String} {x : Build p ε α} {y : Build p δ β} {R : α → β → Prop}
    (h : Follows m m' x y R) : Follows m m' (within name x) (within name y) R := by
  intro S hS s s' t' b hs hrun
  obtain ⟨t₁', hrun₁, rfl⟩ := within_eq_ok.mp hrun
  obtain ⟨a, t₁, hx, ht₁, hab⟩ := h S hS _ _ t₁' b (hS.rename hs (·.enter name)) hrun₁
  exact ⟨a, _, within_eq_ok.mpr ⟨t₁, hx, rfl⟩, hS.rename ht₁ (·.leave), hab⟩

theorem inside {x : Build p ε α} {y : Build p δ β} {R : α → β → Prop} (h : Follows m m' x y R) :
    (path : List String) → Follows m m' (inside path x) (inside path y) R
  | [] => h
  | _ :: path => (Follows.inside h path).within

/-- Rows with the same terms are added to both systems. -/
theorem enforce {name : String} {a a' b b' c c' : LinComb p} (ha : a = a') (hb : b = b')
    (hc : c = c') : Follows m m' (enforce name a b c : Build p ε Unit)
      (enforce name a' b' c' : Build p δ Unit) fun _ _ => True := by
  subst ha hb hc
  intro S hS s s' t' u hs hrun
  cases hrun
  exact ⟨(), _, rfl, hS.addRow hs name a b c, trivial⟩

/-- Circuits that run alike, each with one row, the same in both, and what is
    made of the results. -/
theorem row {name : String} {x : Build p ε α} {y : Build p δ β} {R : α → β → Prop}
    {R' : α' → β' → Prop} {a b c : α → LinComb p} {a' b' c' : β → LinComb p} {g : α → α'}
    {g' : β → β'} (hx : Follows m m' x y R) (ha : ∀ r r', R r r' → a r = a' r')
    (hb : ∀ r r', R r r' → b r = b' r') (hc : ∀ r r', R r r' → c r = c' r')
    (hR : ∀ r r', R r r' → R' (g r) (g' r')) :
    Follows m m' (do let r ← x; Build.enforce name (a r) (b r) (c r); return g r)
      (do let r ← y; Build.enforce name (a' r) (b' r) (c' r); return g' r) R' := by
  refine hx.bind fun r r' h => ?_
  refine (Follows.enforce (ha r r' h) (hb r r' h) (hc r r' h)).bind fun _ _ _ => pure ?_
  exact hR r r' h

/-- The follower has the value that it asked for, which is its leader's. -/
private theorem alike_fresh [hm : Mode.AsksLess m m'] {x x' : Variable} (hx : x = x')
    {u v : Option (Fp p)} (huv : m.solves = true → u = v) :
    Num.Alike m ⟨x, if m.solves then u else none⟩ ⟨x', if m'.solves then v else none⟩ := by
  cases hsolves : m.solves with
  | false => exact ⟨hx, Or.inl rfl, fun h => nomatch hsolves.symm.trans h⟩
  | true =>
      rw [hm.solves hsolves]
      exact ⟨hx, Or.inr (huv hsolves), fun _ => huv hsolves⟩

/-- A fresh variable has the same number in both runs; only a follower that
    computes values looks at its value. -/
theorem aux [hm : Mode.AsksLess m m'] {name : String} {u v : Option (Fp p)}
    (huv : m.solves = true → u = v) :
    Follows m m' (aux name u) (aux name v) (Num.Alike m) := by
  intro S hS s s' t' y hs hrun
  obtain ⟨hv, rfl, rfl⟩ := aux_eq_ok.mp hrun
  have hu : m.solves = true → u ≠ none := fun h => (huv h) ▸ hv (hm.solves h)
  refine ⟨_, _, aux_eq_ok.mpr ⟨hu, rfl, rfl⟩, hS.rename (hS.growAux hs huv hv) (·.claim name), ?_⟩
  exact alike_fresh (congrArg Variable.aux (hS.numAux hs)) huv

/-- A public variable is numbered likewise. -/
theorem input [hm : Mode.AsksLess m m'] {name : String} {u v : Option (Fp p)}
    (huv : m.solves = true → u = v) :
    Follows m m' (input name u) (input name v) (Num.Alike m) := by
  intro S hS s s' t' y hs hrun
  obtain ⟨hv, rfl, rfl⟩ := input_eq_ok.mp hrun
  have hu : m.solves = true → u ≠ none := fun h => (huv h) ▸ hv (hm.solves h)
  refine ⟨_, _, input_eq_ok.mpr ⟨hu, rfl, rfl⟩, hS.rename (hS.growInput hs huv hv) (·.claim name),
    ?_⟩
  exact alike_fresh (congrArg (fun n => Variable.input (n + 1)) (hS.numInputs hs)) huv

/-- A condition that both runs agree on decides both. -/
theorem ite {c : Prop} [Decidable c] {x x' : Build p ε α} {y y' : Build p δ β}
    {R : α → β → Prop} (h : c → Follows m m' x y R) (h' : ¬c → Follows m m' x' y' R) :
    Follows m m' (if c then x else x') (if c then y else y') R := by
  split
  · next hc => exact h hc
  · next hc => exact h' hc

/-- By induction on the number of rounds. -/
private theorem tabulateTo {k : Nat} {f : Fin k → Build p ε α} {g : Fin k → Build p δ β}
    {R : α → β → Prop} (h : ∀ i, Follows m m' (f i) (g i) R) (n : Nat) (le : n ≤ k) :
    Follows m m' (tabulateTo f n le) (tabulateTo g n le)
      fun v w => ∀ i (hi : i < n), R v[i] w[i] := by
  induction n with
  | zero => exact pure fun i hi => absurd hi (Nat.not_lt_zero i)
  | succ n ih =>
      refine (ih (by omega)).bind fun v w hvw => (h ⟨n, le⟩).bind fun a b hab => pure ?_
      intro i hi
      rw [Vector.getElem_push, Vector.getElem_push]
      split
      · next hin => exact hvw i hin
      · next hin => exact hab

/-- Loops run alike where their rounds do. -/
theorem tabulate {n : Nat} {f : Fin n → Build p ε α} {g : Fin n → Build p δ β}
    {R : α → β → Prop} (h : ∀ i, Follows m m' (f i) (g i) R) :
    Follows m m' (tabulate f) (tabulate g) fun v w => ∀ i (hi : i < n), R v[i] w[i] :=
  tabulateTo h n (Nat.le_refl n)

/-- So do loops over lists that are related. -/
theorem listMapM {f : α → Build p ε α'} {g : β → Build p δ β'} {R : α → β → Prop}
    {R' : α' → β' → Prop} (h : ∀ x y, R x y → Follows m m' (f x) (g y) R')
    {xs : List α} {ys : List β} (hxy : List.Forall₂ R xs ys) :
    Follows m m' (xs.mapM f) (ys.mapM g) (List.Forall₂ R') := by
  induction hxy with
  | nil => exact pure List.Forall₂.nil
  | cons hx _ ih =>
      rw [List.mapM_cons, List.mapM_cons]
      refine (h _ _ hx).bind fun a b hab => ih.bind fun as bs habs => pure ?_
      exact List.Forall₂.cons hab habs

/-- And loops over one list. -/
theorem listForM {f : α → Build p ε Unit} {g : α → Build p δ Unit} (xs : List α)
    (h : ∀ x, Follows m m' (f x) (g x) fun _ _ => True) :
    Follows m m' (xs.forM f) (xs.forM g) fun _ _ => True := by
  induction xs with
  | nil => exact pure trivial
  | cons x rest ih => exact (h x).bind fun _ _ _ => ih

end Follows

end Build

end RankOne
