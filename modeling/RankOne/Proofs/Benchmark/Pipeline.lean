import Mathlib.Tactic.TFAE
import RankOne.Benchmark.Report
import RankOne.Proofs.Benchmark.Validity

/-!
# Pipeline — compiling, solving and checking a benchmark

    A run of a benchmark compiles its circuit, solves it and checks what was
    solved.  It succeeds exactly on the inputs that the gadgets accept, and
    these are the inputs for which the rows can be satisfied at all: no run is
    refused that another witness could have saved.
-/

namespace RankOne.Benchmark

open Build Naming

variable {p : Nat} [Modulus p]

namespace Circuit

/-! ## The two inputs -/

omit [Modulus p] in
theorem one_notMem_stems (c : Circuit p) : "ONE" ∉ ["x", "y"] ++ c.stems := by
  cases c <;> simp [stems]

theorem labelled_synthesize (hcap : 161 ≤ Fp.capacity p) (c : Circuit p) :
    Labelled (["x", "y"] ++ c.stems) c.synthesize fun _ => True := by
  have hinputs : Labelled ["x", "y"] (allocInputs c.x c.y) fun a => a.1.value = none := by
    refine Labelled.of_compiles (L := [.plain "x" (by decide), .plain "y" (by decide)]) ?_
      (by decide) (by decide)
    refine (Num.tidy_alloc _).mapError.within.step fun x hx => ?_
    exact (Num.tidy_alloc _).mapError.within.step fun y _ => Compiles.pure hx
  rw [synthesize_eq]
  refine hinputs.bind (fun a ha => labelled_gadgets hcap c ha) ?_
  cases c <;> simp [stems]

theorem honest_synthesize (hp : p.Prime) (hbig : 2 ^ 224 < p) {c : Circuit p}
    (h : c.Accepts c.x c.y) (w : Witness p) : Honest w c.synthesize fun _ _ => True := by
  have hinputs : Honest w (allocInputs c.x c.y) fun w' a => a.1.Live w' c.x ∧ a.2.Live w' c.y := by
    refine (Num.honest_alloc c.x).mapError.within.bind fun w₁ x _ hx => ?_
    refine (Num.honest_alloc c.y).mapError.within.bind fun w₂ y h₂ hy => ?_
    exact Honest.pure fun w₃ h₃ => ⟨hx.mono (h₂.trans h₃), hy.mono h₃⟩
  rw [synthesize_eq]
  exact hinputs.bind fun w' a _ ha => honest_gadgets hp hbig c ha.1 ha.2 h

theorem follows_synthesize (m m' : Mode) [Mode.AsksLess m m'] (c : Circuit p) :
    Follows m m' c.synthesize c.synthesize fun _ _ => True := by
  have hinputs : Follows m m' (allocInputs c.x c.y) (allocInputs c.x c.y)
      fun a a' => a.1.Alike m a'.1 ∧ a.2.Alike m a'.2 := by
    refine (Num.follows_alloc fun _ => rfl).mapError.within.bind fun x x' hx => ?_
    refine (Num.follows_alloc fun _ => rfl).mapError.within.bind fun y y' hy => ?_
    exact Follows.pure ⟨hx, hy⟩
  rw [synthesize_eq]
  exact hinputs.bind fun a a' ha => follows_gadgets c ha.1 ha.2

/-- The inputs are the first two private variables, and in a run that solves
    they have their values. -/
theorem synthesize_start {c : Circuit p} {mode : Mode} {s' : System p}
    (h : c.synthesize mode .start = .ok () s') : ∃ s₁ : System p, ∃ x y : Num p,
      x.var = .aux 0 ∧ y.var = .aux 1 ∧ c.gadgets x y mode s₁ = .ok () s' ∧
        (mode.solves = true → s₁.aux = #[c.x, c.y] ∧ s₁.inputs = #[1]) := by
  rw [synthesize_eq] at h
  obtain ⟨⟨x, y⟩, s₁, hinputs, hgadgets⟩ := bind_eq_ok.mp h
  obtain ⟨records, solves⟩ := mode
  refine ⟨s₁, x, y, ?_⟩
  cases solves with
  | false => cases records <;> cases hinputs <;> exact ⟨rfl, rfl, hgadgets, nofun⟩
  | true => cases records <;> cases hinputs <;> exact ⟨rfl, rfl, hgadgets, fun _ => ⟨rfl, rfl⟩⟩

/-- Whatever satisfies the rows satisfies what the gadgets ask. -/
theorem accepts_of_holds (hp : p.Prime) (hbig : 2 ^ 224 < p) {c : Circuit p} {s' : System p}
    (hrun : c.synthesize .compiling .start = .ok () s') {z : Variable → Fp p} (one : z .one = 1)
    (h : ∀ row ∈ s'.rows, row.Holds z) : c.Accepts (z (.aux 0)) (z (.aux 1)) := by
  obtain ⟨s₁, x, y, hx, hy, hgadgets, _⟩ := synthesize_start hrun
  rw [← hx, ← hy]
  exact (forces_gadgets hp hbig one c x y .compiling s₁ s' () rfl hgadgets).2
    (System.holdsSince_of_holds s₁ h)

/-- What is solved begins with the constant one and the two inputs. -/
theorem value_of_solve (hp : p.Prime) (hbig : 2 ^ 224 < p) {c : Circuit p} {w : Witness p}
    (h : c.solve = .ok w) :
    w.value .one = 1 ∧ w.value (.aux 0) = c.x ∧ w.value (.aux 1) = c.y := by
  obtain ⟨u, hrun, rfl⟩ : ∃ u, c.synthesize .solving .start = .ok () u ∧ u.witness = w := by
    rw [solve, Build.start] at h
    split at h
    · next u hrun => exact ⟨u, hrun, Except.ok.inj h⟩
    · cases h
  -- a tracing run computes the same values, and of it is known that it only adds
  have hbeside : (System.start : System p).Beside .tracing .solving .start :=
    ⟨rfl, rfl, fun _ _ => rfl, fun _ _ => rfl, fun _ => rfl, fun _ => rfl⟩
  have : Mode.AsksLess .tracing .solving := ⟨fun _ => rfl⟩
  obtain ⟨_, t, htrace, ht, _⟩ := (follows_synthesize .tracing .solving c).beside hbeside hrun
  obtain ⟨s₁, x, y, _, _, hgadgets, hvalues⟩ := synthesize_start htrace
  obtain ⟨haux, hinputs⟩ := hvalues rfl
  have hle : s₁ ≤ t :=
    (forces_gadgets (z := fun _ => 1) hp hbig rfl c x y .tracing s₁ t () rfl hgadgets).1
  have hinput : u.inputs[0]? = some 1 := by
    rw [← ht.inputs rfl]
    exact Witness.getElem?_mono hle.inputs (by rw [hinputs]; rfl)
  have haux₀ : u.aux[0]? = some c.x := by
    rw [← ht.aux rfl]
    exact Witness.getElem?_mono hle.aux (by rw [haux]; rfl)
  have haux₁ : u.aux[1]? = some c.y := by
    rw [← ht.aux rfl]
    exact Witness.getElem?_mono hle.aux (by rw [haux]; rfl)
  have hfits := Witness.fits_value (w := u.witness) hinput
  exact ⟨hfits.one, hfits.aux 0 _ haux₀, hfits.aux 1 _ haux₁⟩

/-- Where a field has room for the digits that are taken, a benchmark compiles
    without a fault, and its shape is what was recorded. -/
theorem compile_eq_ok_of_le (hcap : 161 ≤ Fp.capacity p) (c : Circuit p) : ∃ s : System p,
    c.synthesize .compiling .start = .ok () s ∧ c.compile = .ok s.shape ∧
      s.naming.fault = none := by
  obtain ⟨_, s, hrun, hfault, _⟩ := (labelled_synthesize hcap c).fault_eq (s := .start)
    fun l hl => not_mem_start fun heq => one_notMem_stems c (heq ▸ hl)
  have hfault' : s.naming.fault = none := hfault
  refine ⟨s, hrun, ?_, hfault'⟩
  rw [compile, Build.start, hrun]
  show s.finish = _
  rw [System.finish, hfault']

private theorem room (hbig : 2 ^ 224 < p) : 161 ≤ Fp.capacity p :=
  le_trans (by decide) (Fp.le_capacity_of_two_pow_le hbig.le)

theorem compile_eq_ok (hbig : 2 ^ 224 < p) (c : Circuit p) : ∃ s : System p,
    c.synthesize .compiling .start = .ok () s ∧ c.compile = .ok s.shape := by
  obtain ⟨s, hrun, hcompile, -⟩ := compile_eq_ok_of_le (room hbig) c
  exact ⟨s, hrun, hcompile⟩

/-- On inputs that the gadgets accept, what is solved satisfies the rows. -/
theorem solve_eq_ok (hp : p.Prime) (hbig : 2 ^ 224 < p) {c : Circuit p} {s : System p}
    (hrun : c.synthesize .compiling .start = .ok () s) (h : c.Accepts c.x c.y) :
    ∃ w, c.solve = .ok w ∧ s.shape.check w = .ok () := by
  obtain ⟨_, s', _, u, hcompile, hsolve, _, _, hcheck⟩ := Honest.accepted
    (honest_synthesize hp hbig h (System.start : System p).witness)
    (follows_synthesize .compiling .tracing c)
    ((follows_synthesize .solving .tracing c).mono fun _ _ _ => rfl)
    (labelled_synthesize (room hbig) c) (System.ready_start (one_notMem_stems c))
  obtain ⟨_, rfl⟩ := EStateM.Result.ok.inj (hrun.symm.trans hcompile)
  refine ⟨u.witness, ?_, hcheck⟩
  rw [solve, Build.start, hsolve]

end Circuit

/-! ## Runs -/

section Run

variable {σ : Type} (now : StateM σ Nat)

/-- What a timed computation gives does not depend on the clock. -/
theorem timed_run {α : Type} (work : Unit → Except GadgetError α) (t : σ) : ∃ d t',
    (timed now work).run t = ((work ()).map fun a => (a, d), t') := by
  rw [timed]
  cases hwork : work () with
  | ok a => exact ⟨_, _, rfl⟩
  | error e => exact ⟨0, _, rfl⟩

/-- A computation after another runs from the time that the other leaves. -/
theorem bind_run {α β : Type} (x : ExceptT GadgetError (StateM σ) α)
    (f : α → ExceptT GadgetError (StateM σ) β) (t : σ) : (x >>= f).run t =
      match x.run t with
      | (.ok a, t') => (f a).run t'
      | (.error e, t') => (.error e, t') := by
  show (match x.run t with
    | (r, t') => (ExceptT.bindCont f r : StateM σ (Except GadgetError β)) t') = _
  rcases x.run t with ⟨e | a, t'⟩
  · rfl
  · rfl

/-- The computation gives a result when it starts at `t`. -/
def Succeeds {α : Type} (x : ExceptT GadgetError (StateM σ) α) (t : σ) : Prop :=
  ∃ r t', x.run t = (.ok r, t')

/-- After timed work comes the rest, when the work gives a result. -/
theorem succeeds_timed_bind {α β : Type} {work : Unit → Except GadgetError α}
    {f : α × Nat → ExceptT GadgetError (StateM σ) β} {P : α → Prop}
    (hf : ∀ a, work () = .ok a → ∀ d t, Succeeds (f (a, d)) t ↔ P a) (t : σ) :
    Succeeds (timed now work >>= f) t ↔ ∃ a, work () = .ok a ∧ P a := by
  obtain ⟨d, t', hrun⟩ := timed_run now work t
  rw [Succeeds, bind_run, hrun]
  cases hwork : work () with
  | ok a =>
      refine (hf a hwork d t').trans ⟨fun h => ⟨a, rfl, h⟩, ?_⟩
      rintro ⟨a', heq, h⟩
      cases heq
      exact h
  | error e =>
      constructor
      · rintro ⟨r, t'', h⟩
        cases h
      · rintro ⟨a, h, _⟩
        cases h

theorem succeeds_bind_pure {α β : Type} {x : ExceptT GadgetError (StateM σ) α} (f : α → β)
    (t : σ) : Succeeds (x >>= fun a => pure (f a)) t ↔ Succeeds x t := by
  unfold Succeeds
  rw [bind_run]
  rcases x.run t with ⟨e | a, t'⟩
  · constructor
    · rintro ⟨r, t'', h⟩
      cases h
    · rintro ⟨r, t'', h⟩
      cases h
  · exact ⟨fun _ => ⟨a, t', rfl⟩, fun _ => ⟨f a, t', rfl⟩⟩

/-- Every iteration solves and checks the same, so that all succeed where one does. -/
theorem succeeds_iterate (c : Circuit p) (shape : Shape p) (n : Nat) (t : σ) :
    Succeeds (iterate now c shape n) t ↔
      (n ≠ 0 → ∃ w, c.solve = .ok w ∧ shape.check w = .ok ()) := by
  induction n generalizing t with
  | zero => exact ⟨fun _ h => absurd rfl h, fun _ => ⟨_, _, rfl⟩⟩
  | succ n ih =>
      refine (succeeds_timed_bind now (P := fun w => shape.check w = .ok ())
        (fun w hsolve d t => ?_) t).trans ⟨fun h _ => h, fun h => h n.succ_ne_zero⟩
      -- the later iterations solve the same witness, which the check has accepted
      refine (succeeds_timed_bind now (P := fun _ => True) (fun _ hok d' t => ?_) t).trans ?_
      · refine (succeeds_bind_pure _ t).trans ((ih t).trans ?_)
        exact ⟨fun _ => trivial, fun _ _ => ⟨w, hsolve, hok⟩⟩
      · constructor
        · rintro ⟨_, hok, _⟩
          exact hok
        · intro hok
          exact ⟨(), hok, trivial⟩

theorem succeeds_run (c : Circuit p) {iterations : Nat} (h : 1 ≤ iterations) (t : σ) :
    Succeeds (run now c iterations) t ↔ ∃ shape, c.compile = .ok shape ∧
      ∃ w, c.solve = .ok w ∧ shape.check w = .ok () := by
  refine succeeds_timed_bind now (fun shape _ d t => ?_) t
  refine (succeeds_bind_pure _ t).trans ((succeeds_iterate now c shape iterations t).trans ?_)
  exact ⟨fun hall => hall (Nat.one_le_iff_ne_zero.mp h), fun hone _ => hone⟩

end Run

/-! ## The pipeline -/

namespace Circuit

/-- A circuit compiles, and these say the same of it: a run of it succeeds, the
    check accepts some witness that begins with the two inputs, the rows hold
    under some assignment to the variables that does, and the inputs are what
    the gadgets ask for. -/
theorem run_exact (hp : p.Prime) (hbig : 2 ^ 224 < p) (c : Circuit p) :
    ∃ shape, c.compile = .ok shape ∧
      ∀ {σ : Type} (now : StateM σ Nat) (iterations : Nat) (t : σ), 1 ≤ iterations → List.TFAE [
        ∃ report t', (run now c iterations).run t = (.ok report, t'),
        ∃ w : Witness p, shape.check w = .ok () ∧
          w.value .one = 1 ∧ w.value (.aux 0) = c.x ∧ w.value (.aux 1) = c.y,
        ∃ z : Variable → Fp p, (∀ row ∈ shape.rows, row.Holds z) ∧
          z .one = 1 ∧ z (.aux 0) = c.x ∧ z (.aux 1) = c.y,
        c.Accepts c.x c.y] := by
  obtain ⟨s, hrun, hcompile⟩ := compile_eq_ok hbig c
  refine ⟨s.shape, hcompile, fun now iterations t hpos => ?_⟩
  have hsucceeds := succeeds_run now c hpos t
  tfae_have 1 → 2 := by
    intro h
    obtain ⟨shape, hshape, w, hsolve, hcheck⟩ := hsucceeds.mp h
    obtain rfl : s.shape = shape := Except.ok.inj (hcompile.symm.trans hshape)
    exact ⟨w, hcheck, value_of_solve hp hbig hsolve⟩
  tfae_have 2 → 3 := by
    rintro ⟨w, hcheck, hvalues⟩
    exact ⟨w.value, (Shape.check_eq_ok.mp hcheck).2.2, hvalues⟩
  tfae_have 3 → 4 := by
    rintro ⟨z, hrows, one, hx, hy⟩
    rw [← hx, ← hy]
    exact accepts_of_holds hp hbig hrun one hrows
  tfae_have 4 → 1 := by
    intro h
    exact hsucceeds.mpr ⟨s.shape, hcompile, solve_eq_ok hp hbig hrun h⟩
  tfae_finish

/-- A clock that goes on by one whenever it is read. -/
def ticking : StateM Nat Nat := fun t => (t, t + 1)

/-- The hashing benchmark at full scale runs on the usual inputs, and is refused
    when they are exchanged. -/
theorem run_exact_verifyBlock :
    let c : Circuit Moduli.bn256 := .verifyBlock { x := inputs.1, y := inputs.2 }
    let c' : Circuit Moduli.bn256 := .verifyBlock { x := inputs.2, y := inputs.1 }
    (∃ report t', (run ticking c 1).run 0 = (.ok report, t')) ∧
      ¬∃ report t', (run ticking c' 1).run 0 = (.ok report, t') := by
  intro c c'
  obtain ⟨_, _, hc⟩ := run_exact Moduli.bn256_prime (by decide) c
  obtain ⟨_, _, hc'⟩ := run_exact Moduli.bn256_prime (by decide) c'
  refine ⟨((hc ticking 1 0 le_rfl).out 0 3).mpr ?_, fun h => ?_⟩
  · exact ⟨fun _ => ⟨by decide, by decide⟩, fun _ => ⟨by decide, .inr (by decide)⟩, by decide⟩
  · have haccepts := ((hc' ticking 1 0 le_rfl).out 0 3).mp h
    have hahead : Fp.Ahead 160 (inputs.1 : Fp Moduli.bn256) inputs.2 := haccepts.1 (by decide)
    exact absurd hahead.2 (by decide)

end Circuit

end RankOne.Benchmark
