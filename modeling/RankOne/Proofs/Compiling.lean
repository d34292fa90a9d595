import Mathlib.Data.List.Nodup
import RankOne.Proofs.Run

/-!
# Compiling — runs that do not stop, and the names that they give

    A compiling run never looks at a value, so whether it stops and which
    names it gives can be read off the text of a circuit.
    `Compiles names body Q` says that from every system such a run gives a
    result with `Q`, and that the paths it leaves are those that `names` leave
    when they are given, in that order, in the innermost namespace.

    A namespace accounts for one name, as long as the names given in it are
    distinct and have no separator: then whatever happened inside has left no
    trace but the namespace's own name.  So all that is ever asked of a
    circuit's names is asked once, of one list for each namespace.
-/

namespace RankOne

variable {p : Nat}

namespace Naming

/-- Gives names one after the other. -/
def claimAll (names : List String) (n : Naming) : Naming :=
  names.foldl (fun n name => n.claim name) n

/-- Names that can be given in one namespace: none twice, and none with the
    separator in it. -/
def Distinct (names : List String) : Prop :=
  names.Nodup ∧ ∀ name ∈ names, '/' ∉ name.toList

instance (names : List String) : Decidable (Distinct names) :=
  inferInstanceAs (Decidable (_ ∧ _))

/-- Names are claimed one after another. -/
theorem claimAll_append (names names' : List String) (n : Naming) :
    n.claimAll (names ++ names') = (n.claimAll names).claimAll names' :=
  List.foldl_append

/-- Distinct names that the innermost namespace has not given are no fault. -/
theorem claimAll_of_distinct {names : List String} (h : Distinct names) (n : Naming)
    (hn : ∀ name ∈ names, name ∉ n.inner.names) :
    n.claimAll names = ⟨⟨n.inner.path, names.reverse ++ n.inner.names⟩, n.outer, n.fault⟩ := by
  induction names generalizing n with
  | nil => rfl
  | cons name rest ih =>
      obtain ⟨hnodup, hslash⟩ := h
      obtain ⟨hnot, hrest⟩ := List.nodup_cons.mp hnodup
      -- the first name is neither malformed nor in use, so claiming it finds no fault
      have hclaim : n.claim name = ⟨⟨n.inner.path, name :: n.inner.names⟩, n.outer, n.fault⟩ := by
        have hfault : n.inner.faultOf name = none := by
          rw [Space.faultOf_eq, if_neg (hslash name List.mem_cons_self),
            if_neg (hn name List.mem_cons_self)]
        rw [claim, hfault]
        cases n.fault with
        | none => rfl
        | some fault => rfl
      have hfresh : ∀ x ∈ rest, x ∉ (n.claim name).inner.names := by
        intro x hx
        rw [hclaim]
        rintro (_ | ⟨_, hmem⟩)
        · exact hnot hx
        · exact hn x (List.mem_cons_of_mem _ hx) hmem
      show (n.claim name).claimAll rest = _
      rw [ih ⟨hrest, fun x hx => hslash x (List.mem_cons_of_mem _ hx)⟩ (n.claim name) hfresh,
        hclaim, List.reverse_cons, List.append_assoc]
      rfl

/-- A namespace whose own names are distinct leaves no trace but its name. -/
theorem leave_claimAll_enter {names : List String} (h : Distinct names) (name : String)
    (n : Naming) : ((n.enter name).claimAll names).leave = n.claim name := by
  rw [claimAll_of_distinct h (n.enter name) fun _ _ => List.not_mem_nil]
  rfl

end Naming

namespace Build

variable {ε ε' α β : Type}

/-- A compiling run gives a result with `Q` and leaves the paths that `names`
    leave. -/
def Compiles (names : List String) (body : Build p ε α) (Q : α → Prop) : Prop :=
  ∀ s : System p, ∃ a s', body .compiling s = .ok a s' ∧
    s'.naming = s.naming.claimAll names ∧ Q a

namespace Compiles

variable {N M : List String}

theorem mono {body : Build p ε α} {Q R : α → Prop} (h : Compiles N body Q)
    (hQR : ∀ a, Q a → R a) : Compiles N body R := by
  intro s
  obtain ⟨a, s', hrun, hnames, hQ⟩ := h s
  exact ⟨a, s', hrun, hnames, hQR a hQ⟩

theorem pure {a : α} {Q : α → Prop} (h : Q a) : Compiles [] (pure a : Build p ε α) Q :=
  fun s => ⟨a, s, rfl, rfl, h⟩

/-- Names of the parts follow one another. -/
theorem bind {x : Build p ε α} {f : α → Build p ε β} {Q : α → Prop} {R : β → Prop}
    (hx : Compiles N x Q) (hf : ∀ a, Q a → Compiles M (f a) R) :
    Compiles (N ++ M) (x >>= f) R := by
  intro s
  obtain ⟨a, s₁, hrun₁, hnames₁, hQ⟩ := hx s
  obtain ⟨b, s₂, hrun₂, hnames₂, hR⟩ := hf a hQ s₁
  refine ⟨b, s₂, bind_eq_ok.mpr ⟨a, s₁, hrun₁, hrun₂⟩, ?_, hR⟩
  rw [hnames₂, hnames₁, Naming.claimAll_append]

/-- The rule for a circuit that begins with one name. -/
theorem step {name : String} {x : Build p ε α} {f : α → Build p ε β} {Q : α → Prop}
    {R : β → Prop} (hx : Compiles [name] x Q) (hf : ∀ a, Q a → Compiles N (f a) R) :
    Compiles (name :: N) (x >>= f) R :=
  hx.bind hf

/-- What is made of a result gives no names. -/
theorem map {x : Build p ε α} {g : α → β} {Q : β → Prop}
    (hx : Compiles N x fun a => Q (g a)) : Compiles N (g <$> x) Q := by
  intro s
  obtain ⟨a, s', hrun, hnames, hQ⟩ := hx s
  have hmap : (g <$> x) .compiling s = .ok (g a) s' :=
    (bind_eq_ok (f := fun a => Pure.pure (g a))).mpr ⟨a, s', hrun, rfl⟩
  exact ⟨g a, s', hmap, hnames, hQ⟩

theorem mapError {f : ε → ε'} {x : Build p ε α} {Q : α → Prop} (hx : Compiles N x Q) :
    Compiles N (mapError f x) Q := by
  intro s
  obtain ⟨a, s', hrun, hrest⟩ := hx s
  exact ⟨a, s', mapError_eq_ok.mpr hrun, hrest⟩

/-- A row gives its name, and that is all that it does to the paths. -/
theorem enforce (name : String) [Modulus p] (a b c : LinComb p) :
    Compiles [name] (enforce name a b c : Build p ε Unit) fun _ => True :=
  fun s => ⟨(), s.addRow name a b c, rfl, rfl, trivial⟩

/-- A circuit, one row, and what is made of the result. -/
theorem row {name : String} [Modulus p] {x : Build p ε α} {a b c : α → LinComb p} {g : α → β}
    {Q : α → Prop} {R : β → Prop} (hx : Compiles N x Q) (hR : ∀ r, Q r → R (g r)) :
    Compiles (N ++ [name]) (do let r ← x; Build.enforce name (a r) (b r) (c r); return g r) R := by
  refine hx.bind fun r hr => ?_
  refine (Compiles.enforce name (a r) (b r) (c r)).step fun _ _ => pure ?_
  exact hR r hr

/-- A variable gives its name, and has no value in a compiling run. -/
theorem aux (name : String) (value : Option (Fp p)) :
    Compiles [name] (aux name value) fun x => x.value = none :=
  fun s => ⟨⟨.aux s.numAux, none⟩, s.countAux.claim name, rfl, rfl, rfl⟩

/-- By induction on the number of rounds. -/
private theorem tabulateTo {m : Nat} {body : Fin m → Build p ε α} {name : Nat → String}
    {Q : Fin m → α → Prop} (h : ∀ i : Fin _, Compiles [name i] (body i) (Q i)) (n : Nat)
    (le : n ≤ m) :
    Compiles ((List.range n).map name) (tabulateTo body n le)
      fun v => ∀ i (hi : i < n), Q ⟨i, Nat.lt_of_lt_of_le hi le⟩ v[i] := by
  induction n with
  | zero => exact pure fun i hi => absurd hi (Nat.not_lt_zero i)
  | succ n ih =>
      rw [List.range_succ, List.map_append, List.map_singleton]
      refine (ih (by omega)).bind fun v hv => ?_
      exact (h ⟨n, le⟩).bind (M := []) fun a ha => pure (forall_push le hv ha)

/-- A loop gives the names of its rounds in order. -/
theorem tabulate {n : Nat} {body : Fin n → Build p ε α} {name : Nat → String}
    {Q : Fin n → α → Prop} (h : ∀ i : Fin _, Compiles [name i] (body i) (Q i)) :
    Compiles ((List.range n).map name) (tabulate body) fun v => ∀ i (hi : i < n), Q ⟨i, hi⟩ v[i] :=
  tabulateTo h n (Nat.le_refl n)

/-- So does a loop over a list. -/
theorem listMapM {body : α → Build p ε β} {name : α → String} {Q : α → β → Prop} (xs : List α)
    (h : ∀ x ∈ xs, Compiles [name x] (body x) (Q x)) :
    Compiles (xs.map name) (xs.mapM body) fun ys => List.Forall₂ Q xs ys := by
  induction xs with
  | nil => exact pure List.Forall₂.nil
  | cons x rest ih =>
      rw [List.mapM_cons]
      refine (h x List.mem_cons_self).bind (M := rest.map name) fun y hy => ?_
      have hrest := ih fun x' hx' => h x' (List.mem_cons_of_mem _ hx')
      have := hrest.bind (f := fun ys => Pure.pure (y :: ys)) (M := []) fun ys hys =>
        pure (List.Forall₂.cons hy hys)
      rwa [List.append_nil] at this

/-- A loop over a list may give several names for each element. -/
theorem listForM {body : α → Build p ε Unit} {M : α → List String} (xs : List α)
    (h : ∀ x ∈ xs, Compiles (M x) (body x) fun _ => True) :
    Compiles (xs.flatMap M) (xs.forM body) fun _ => True := by
  induction xs with
  | nil => exact pure trivial
  | cons x rest ih =>
      refine (h x List.mem_cons_self).bind fun _ _ => ?_
      exact ih fun x' hx' => h x' (List.mem_cons_of_mem _ hx')

end Compiles

/-- A compiling run gives a result with `Q`, and its names can be given in one
    namespace.  Which names they are may depend on the run. -/
def Tidy (body : Build p ε α) (Q : α → Prop) : Prop :=
  ∀ s : System p, ∃ a s' N, body .compiling s = .ok a s' ∧ Naming.Distinct N ∧
    s'.naming = s.naming.claimAll N ∧ Q a

/-- Names that are known may be looked at. -/
theorem Compiles.tidy {N : List String} {body : Build p ε α} {Q : α → Prop}
    (h : Compiles N body Q) (hnames : Naming.Distinct N) : Tidy body Q := by
  intro s
  obtain ⟨a, s', hrun, hnaming, hQ⟩ := h s
  exact ⟨a, s', N, hrun, hnames, hnaming, hQ⟩

namespace Tidy

theorem pure {a : α} {Q : α → Prop} (h : Q a) : Tidy (pure a : Build p ε α) Q :=
  (Compiles.pure h).tidy (by decide)

theorem mono {body : Build p ε α} {Q R : α → Prop} (h : Tidy body Q) (hQR : ∀ a, Q a → R a) :
    Tidy body R := by
  intro s
  obtain ⟨a, s', N, hrun, hnames, hnaming, hQ⟩ := h s
  exact ⟨a, s', N, hrun, hnames, hnaming, hQR a hQ⟩

/-- What gives no names may follow. -/
theorem map {x : Build p ε α} {g : α → β} {Q : β → Prop} (hx : Tidy x fun a => Q (g a)) :
    Tidy (g <$> x) Q := by
  intro s
  obtain ⟨a, s', N, hrun, hnames, hnaming, hQ⟩ := hx s
  have hmap : (g <$> x) .compiling s = .ok (g a) s' :=
    (bind_eq_ok (f := fun a => Pure.pure (g a))).mpr ⟨a, s', hrun, rfl⟩
  exact ⟨g a, s', N, hmap, hnames, hnaming, hQ⟩

theorem mapError {f : ε → ε'} {x : Build p ε α} {Q : α → Prop} (hx : Tidy x Q) :
    Tidy (mapError f x) Q := by
  intro s
  obtain ⟨a, s', N, hrun, hrest⟩ := hx s
  exact ⟨a, s', N, mapError_eq_ok.mpr hrun, hrest⟩

/-- A namespace gives its own name, and looks after the names in it. -/
theorem within {name : String} {x : Build p ε α} {Q : α → Prop} (hx : Tidy x Q) :
    Compiles [name] (within name x) Q := by
  intro s
  obtain ⟨a, s', N, hrun, hnames, hnaming, hQ⟩ := hx (s.enter name)
  refine ⟨a, s'.leave, within_eq_ok.mpr ⟨s', hrun, rfl⟩, ?_, hQ⟩
  show s'.naming.leave = s.naming.claim name
  rw [hnaming]
  exact Naming.leave_claimAll_enter hnames name s.naming

end Tidy

/-- Every compiling run gives a result, whatever names it gives twice. -/
def Completes (body : Build p ε α) : Prop := ∀ s : System p, ∃ a s', body .compiling s = .ok a s'

/-- What compiles tidily compiles. -/
theorem Tidy.completes {body : Build p ε α} {Q : α → Prop} (h : Tidy body Q) : Completes body := by
  intro s
  obtain ⟨a, s', _, hrun, _⟩ := h s
  exact ⟨a, s', hrun⟩

namespace Completes

/-- Both parts have to compile, the second one after any result of the first. -/
theorem bind {x : Build p ε α} {f : α → Build p ε β} (hx : Completes x)
    (hf : ∀ a, Completes (f a)) : Completes (x >>= f) := by
  intro s
  obtain ⟨a, s₁, hrun₁⟩ := hx s
  obtain ⟨b, s₂, hrun₂⟩ := hf a s₁
  exact ⟨b, s₂, bind_eq_ok.mpr ⟨a, s₁, hrun₁, hrun₂⟩⟩

theorem within {name : String} {x : Build p ε α} (hx : Completes x) :
    Completes (within name x) := by
  intro s
  obtain ⟨a, s', hrun⟩ := hx (s.enter name)
  exact ⟨a, s'.leave, within_eq_ok.mpr ⟨s', hrun, rfl⟩⟩

theorem inside {x : Build p ε α} (hx : Completes x) :
    (path : List String) → Completes (inside path x)
  | [] => hx
  | _ :: path => (Completes.inside hx path).within

end Completes

end Build

end RankOne
