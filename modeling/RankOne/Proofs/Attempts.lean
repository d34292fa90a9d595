import RankOne.Proofs.Lockstep

/-!
# Attempts — the names of a run that may fail

    A compiling run fails where a number has to be split into more digits than
    the field has room for.  What it has named until then stays named.

    `Attempts names body Q` says that a run gives a result with `Q` and the
    names `names`, or fails when it has given the first few of them.  A
    namespace takes one name in either case, as long as the names in it are
    distinct (`Contained`), so that here too one list for each namespace is all
    that is looked at.
-/

namespace RankOne

open Naming (Label)

variable {p : Nat}

/-- Some of distinct names are distinct. -/
theorem Naming.Distinct.of_sublist {names given : List String} (h : Naming.Distinct names)
    (hgiven : given.Sublist names) : Naming.Distinct given :=
  ⟨h.1.sublist hgiven, fun name hname => h.2 name (hgiven.subset hname)⟩

namespace Build

variable {ε ε' α β : Type}

/-- A compiling run gives a result with `Q` and leaves the paths that `names`
    leave, or fails and leaves those of the first few. -/
def Attempts (names : List String) (body : Build p ε α) (Q : α → Prop) : Prop :=
  ∀ s : System p,
    (∃ a s', body .compiling s = .ok a s' ∧ s'.naming = s.naming.claimAll names ∧ Q a) ∨
      ∃ e s' given, body .compiling s = .error e s' ∧ given <+: names ∧
        s'.naming = s.naming.claimAll given

/-- Whatever comes of a compiling run, its names can be given in one
    namespace. -/
def Contained (body : Build p ε α) : Prop :=
  ∀ s : System p, ∃ names, Naming.Distinct names ∧
    (stateOf (body .compiling s)).naming = s.naming.claimAll names

/-- A run that gives a result does not fail half way. -/
theorem Compiles.attempts {N : List String} {body : Build p ε α} {Q : α → Prop}
    (h : Compiles N body Q) : Attempts N body Q :=
  fun s => .inl (h s)

/-- A run that always succeeds is no exception. -/
theorem Tidy.contained {body : Build p ε α} {Q : α → Prop} (h : Tidy body Q) : Contained body := by
  intro s
  obtain ⟨a, s', N, hrun, hdistinct, hnaming, -⟩ := h s
  rw [hrun]
  exact ⟨N, hdistinct, hnaming⟩

namespace Attempts

variable {N M : List String}

theorem mono {body : Build p ε α} {Q R : α → Prop} (h : Attempts N body Q)
    (hQR : ∀ a, Q a → R a) : Attempts N body R := by
  intro s
  rcases h s with ⟨a, s', hrun, hnaming, hQ⟩ | herror
  · exact .inl ⟨a, s', hrun, hnaming, hQR a hQ⟩
  · exact .inr herror

theorem pure {a : α} {Q : α → Prop} (h : Q a) : Attempts [] (pure a : Build p ε α) Q :=
  (Compiles.pure h).attempts

/-- Where the first part fails, only some of its names are given. -/
theorem bind {x : Build p ε α} {f : α → Build p ε β} {Q : α → Prop} {R : β → Prop}
    (hx : Attempts N x Q) (hf : ∀ a, Q a → Attempts M (f a) R) :
    Attempts (N ++ M) (x >>= f) R := by
  intro s
  rw [bind_apply]
  rcases hx s with ⟨a, s₁, hrun, hnaming, hQ⟩ | ⟨e, s₁, given, hrun, hgiven, hnaming⟩
  · rw [hrun]
    rcases hf a hQ s₁ with ⟨b, s₂, hrun', hnaming', hR⟩ | ⟨e, s₂, given, hrun', hgiven, hnaming'⟩
    · refine .inl ⟨b, s₂, hrun', ?_, hR⟩
      rw [hnaming', hnaming, Naming.claimAll_append]
    · refine .inr ⟨e, s₂, N ++ given, hrun', (List.prefix_append_right_inj N).mpr hgiven, ?_⟩
      rw [hnaming', hnaming, Naming.claimAll_append]
  · rw [hrun]
    exact .inr ⟨e, s₁, given, rfl, hgiven.trans (List.prefix_append N M), hnaming⟩

/-- The rule for a circuit that begins with one name. -/
theorem step {name : String} {x : Build p ε α} {f : α → Build p ε β} {Q : α → Prop}
    {R : β → Prop} (hx : Attempts [name] x Q) (hf : ∀ a, Q a → Attempts N (f a) R) :
    Attempts (name :: N) (x >>= f) R :=
  hx.bind hf

/-- What gives no names may follow. -/
theorem map {x : Build p ε α} {g : α → β} {Q : β → Prop} (hx : Attempts N x fun a => Q (g a)) :
    Attempts N (g <$> x) Q := by
  have hbind := hx.bind (f := fun a => Pure.pure (g a)) (M := []) fun _ hQ => pure hQ
  rw [List.append_nil] at hbind
  exact hbind

/-- The first few of distinct names are distinct. -/
theorem contained {body : Build p ε α} {Q : α → Prop} (h : Attempts N body Q)
    (hN : Naming.Distinct N) : Contained body := by
  intro s
  rcases h s with ⟨a, s', hrun, hnaming, -⟩ | ⟨e, s', given, hrun, hgiven, hnaming⟩
  · rw [hrun]
    exact ⟨N, hN, hnaming⟩
  · rw [hrun]
    exact ⟨given, hN.of_sublist hgiven.sublist, hnaming⟩

/-- By induction on the number of rounds. -/
private theorem tabulateTo {m : Nat} {body : Fin m → Build p ε α} {name : Nat → String}
    (h : ∀ i : Fin _, Attempts [name i] (body i) fun _ => True) (n : Nat) (le : n ≤ m) :
    Attempts ((List.range n).map name) (tabulateTo body n le) fun _ => True := by
  induction n with
  | zero => exact pure trivial
  | succ n ih =>
      rw [List.range_succ, List.map_append, List.map_singleton]
      refine (ih (by omega)).bind fun v _ => ?_
      exact (h ⟨n, le⟩).bind (M := []) fun a _ => pure trivial

/-- A loop gives the names of the rounds that it gets to. -/
theorem tabulate {n : Nat} {body : Fin n → Build p ε α} {name : Nat → String}
    (h : ∀ i : Fin _, Attempts [name i] (body i) fun _ => True) :
    Attempts ((List.range n).map name) (tabulate body) fun _ => True :=
  tabulateTo h n (Nat.le_refl n)

/-- So does a loop over a list. -/
theorem listMapM {body : α → Build p ε β} {name : α → String} (xs : List α)
    (h : ∀ x, Attempts [name x] (body x) fun _ => True) :
    Attempts (xs.map name) (xs.mapM body) fun _ => True := by
  induction xs with
  | nil => exact pure trivial
  | cons x rest ih =>
      rw [List.mapM_cons]
      exact (h x).bind (M := rest.map name) fun y _ => ih.map

end Attempts

namespace Contained

theorem throw (e : ε) : Contained (throw e : Build p ε α) :=
  fun _ => ⟨[], by decide, rfl⟩

/-- What gives no names may follow. -/
theorem map {x : Build p ε α} {g : α → β} (hx : Contained x) : Contained (g <$> x) := by
  intro s
  obtain ⟨names, hdistinct, hnaming⟩ := hx s
  refine ⟨names, hdistinct, ?_⟩
  rw [map_eq_bind, bind_apply]
  cases hrun : x .compiling s with
  | ok a s' =>
      rw [hrun] at hnaming
      exact hnaming
  | error e s' =>
      rw [hrun] at hnaming
      exact hnaming

/-- A namespace gives its own name, and looks after the names in it. -/
theorem within {name : String} {x : Build p ε α} (hx : Contained x) :
    Attempts [name] (within name x) fun _ => True := by
  intro s
  obtain ⟨names, hdistinct, hnaming⟩ := hx (s.enter name)
  have hleave : (stateOf (x .compiling (s.enter name))).leave.naming = s.naming.claim name := by
    show (stateOf (x .compiling (s.enter name))).naming.leave = _
    rw [hnaming]
    exact Naming.leave_claimAll_enter hdistinct name s.naming
  have hrecording : recording .compiling (·.enter name) s = s.enter name := rfl
  unfold Build.within
  rw [hrecording]
  cases hrun : x .compiling (s.enter name) with
  | ok a s' =>
      rw [hrun] at hleave
      exact .inl ⟨a, s'.leave, rfl, hleave, trivial⟩
  | error e s' =>
      rw [hrun] at hleave
      exact .inr ⟨e, s'.leave, [name], rfl, List.prefix_rfl, hleave⟩

end Contained

end Build

/-! ## Digits and sums -/

open Build

variable [Modulus p]

/-- Without room for the digits nothing is named. -/
theorem LinNum.contained_toBits (x : LinNum p) (n : Nat) : Contained (x.toBits n) := by
  by_cases hroom : n ≤ Fp.capacity p
  · exact (x.tidy_toBits hroom).contained
  · rw [toBits, if_pos (not_le.mp hroom)]
    exact .throw _

namespace Bits

variable {w : Nat}

theorem contained_fromNum (x : Num p) : Contained (fromNum (w := w) x) :=
  (x.toLinNum.contained_toBits w).map

/-- Whether or not there is room for its digits, a sum names nothing twice. -/
theorem contained_addMany (xs : List (Bits w)) : Contained (addMany (p := p) xs) := by
  rw [addMany]
  split
  · exact (Tidy.pure trivial : Tidy _ fun _ => True).contained
  · exact ((LinNum.contained_toBits _ _).within.contained (by decide)).map

end Bits

end RankOne
