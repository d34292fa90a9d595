import RankOne.Field.Moduli
import RankOne.Proofs.Pairing
import RankOne.Proofs.Script.Alike
import RankOne.Proofs.Sha256.Outcomes

/-!
# Simulation — a sequence of calls, compiled and solved

    One and the same sequence of calls is made in two runs.  Step by step the
    registers stay alike and the systems related, so that the next step finds
    arguments that are alike again.

    Between a run that solves and one that compiles this needs the calls of the
    former to succeed.  Between two runs that compile nothing is needed: they
    fail together, and record the same rows under the same names, whatever
    values the allocations ask for.
-/

namespace RankOne.Script

open Build Sha256

variable {p : Nat} {N : Num p → Num p → Prop} {S : System p → System p → Prop}

/-! ## Replies and registers alike -/

/-- Results that are alike, the same error, or no call in either run. -/
inductive Reply.Alike (N : Num p → Num p → Prop) : Reply p → Reply p → Prop where
  | done {e f : Entry p} (h : e.Alike N f) : Alike N (.done e) (.done f)
  | failed (e : GadgetError) : Alike N (.failed e) (.failed e)
  | skipped : Alike N .skipped .skipped

/-- Registers that are alike and systems that are related. -/
structure Config.Alike (N : Num p → Num p → Prop) (S : System p → System p → Prop)
    (c d : Config p) : Prop where
  store : c.store.Alike N d.store
  system : S c.system d.system

/-- What comes of a step in two runs, and what is there after it. -/
structure Agree (N : Num p → Num p → Prop) (S : System p → System p → Prop)
    (r r' : Reply p × Config p) : Prop where
  reply : r.1.Alike N r'.1
  config : r.2.Alike N S r'.2

/-- The call failed. -/
def Reply.isFailed : Reply p → Bool
  | .failed _ => true
  | .done _ | .skipped => false

/-- No call of a run failed. -/
def Succeeds (run : List (Reply p × Config p)) : Prop := ∀ r ∈ run, r.1.isFailed = false

instance (run : List (Reply p × Config p)) : Decidable (Succeeds run) :=
  inferInstanceAs (Decidable (∀ r ∈ run, r.1.isFailed = false))

theorem Reply.Alike.isFailed_eq {r r' : Reply p} (h : r.Alike N r') : r.isFailed = r'.isFailed := by
  cases h with
  | done _ | failed _ | skipped => rfl

theorem Succeeds.of_agree {run run' : List (Reply p × Config p)}
    (h : List.Forall₂ (Agree N S) run run') (hrun : Succeeds run') : Succeeds run := by
  induction h with
  | nil => exact hrun
  | cons hagree _ ih =>
      obtain ⟨hfirst, hrest⟩ := List.forall_mem_cons.mp hrun
      exact List.forall_mem_cons.mpr ⟨hagree.reply.isFailed_eq.trans hfirst, ih hrest⟩

section Steps

variable [Modulus p] (given given' : Supply p)

/-! ## One step -/

/-- A step whose call does not fail in the run that solves. -/
theorem Step.follows (step : Step p) {c d : Config p}
    (h : c.Alike (Num.Alike .compiling) System.Paired d)
    (hok : (step.run .solving given' d).1.isFailed = false) :
    Agree (Num.Alike .compiling) System.Paired (step.run .compiling given c)
      (step.run .solving given' d) := by
  cases step with
  | call path g args out =>
      rcases none_or_some (args.alike_read h.store) with ⟨hx, hy⟩ | ⟨x, y, hx, hy, hxy⟩
      · simp only [run, hx, hy]
        exact ⟨.skipped, h⟩
      have hcall := (g.follows_circuit .solving given given' hxy).inside path
      simp only [run, hx, hy] at hok ⊢
      cases hrun : Build.inside path (g.circuit given' y) .solving d.system with
      | error e u =>
          rw [hrun] at hok
          exact absurd hok.symm Bool.false_ne_true
      | ok b u =>
          obtain ⟨a, s, hrun', hpaired, hab⟩ := hcall _ System.Paired.kept _ _ _ _ h.system hrun
          rw [hrun']
          exact ⟨.done ⟨hab⟩, h.store.keep out ⟨hab⟩, hpaired⟩
  | hash path op i args out =>
      have hread := (Arg.pair (.reg .digest i) args).alike_read h.store
      rcases none_or_some hread with ⟨hx, hy⟩ | ⟨⟨x₀, x⟩, ⟨y₀, y⟩, hx, hy, hdigest, hxy⟩
      · simp only [run, hx, hy]
        exact ⟨.skipped, h⟩
      have hop := op.compare_circuit (Hashing.follows .compiling .solving) hxy
      have hcall := (hop x₀ y₀ hdigest).inside path
      rw [← Hashing.on_inside, ← Hashing.on_inside] at hcall
      simp only [run, hx, hy] at hok ⊢
      cases hrun : Hashing.inside path (op.circuit y) .solving (y₀, d.system) with
      | error e u =>
          rw [hrun] at hok
          exact absurd hok.symm Bool.false_ne_true
      | ok b u =>
          obtain ⟨⟨a, x₁⟩, s, hrun', hpaired, hab, hdigest'⟩ :=
            hcall _ System.Paired.kept _ _ _ _ h.system (Hashing.on_eq_ok.mpr hrun)
          rw [Hashing.on_eq_ok.mp hrun']
          have hheld := h.store.keep i (.mk (k := .digest) hdigest')
          exact ⟨.done ⟨hab⟩, hheld.keep out ⟨hab⟩, hpaired⟩

/-- A step of a run that compiles, whatever comes of it. -/
theorem Step.lockstep (step : Step p) {c d : Config p} (h : c.Alike Eq Eq d) :
    Agree Eq Eq (step.run .compiling given c) (step.run .compiling given' d) := by
  cases step with
  | call path g args out =>
      rcases none_or_some (args.alike_read h.store) with ⟨hx, hy⟩ | ⟨x, y, hx, hy, hxy⟩
      · simp only [run, hx, hy]
        exact ⟨.skipped, h⟩
      have hcall := (g.lockstep_circuit given given' hxy).inside path _ _ h.system
      simp only [run, hx, hy]
      rcases hcall.ok_or_error with
        ⟨a, s, b, t, hrun, hrun', hst, hab⟩ | ⟨e, s, t, hrun, hrun', hst⟩
      · rw [hrun, hrun']
        exact ⟨.done ⟨hab⟩, h.store.keep out ⟨hab⟩, hst⟩
      · rw [hrun, hrun']
        exact ⟨.failed e, h.store, hst⟩
  | hash path op i args out =>
      have hread := (Arg.pair (.reg .digest i) args).alike_read h.store
      rcases none_or_some hread with ⟨hx, hy⟩ | ⟨⟨x₀, x⟩, ⟨y₀, y⟩, hx, hy, hdigest, hxy⟩
      · simp only [run, hx, hy]
        exact ⟨.skipped, h⟩
      have hop := op.compare_circuit Hashing.lockstep hxy
      have hcall := Hashing.lockstep_inside hop path (x₀, c.system) (y₀, d.system)
        ⟨hdigest, h.system⟩
      simp only [run, hx, hy]
      rcases hcall.ok_or_error with
        ⟨a, s, b, t, hrun, hrun', hst, hab⟩ | ⟨e, s, t, hrun, hrun', hst⟩
      · rw [hrun, hrun']
        have hheld := h.store.keep i (.mk (k := .digest) hst.digest)
        exact ⟨.done ⟨hab⟩, hheld.keep out ⟨hab⟩, hst.system⟩
      · rw [hrun, hrun']
        exact ⟨.failed e, h.store.keep i (.mk (k := .digest) hst.digest), hst.system⟩

/-! ## Whole runs -/

theorem trace_follows (steps : List (Step p)) {c d : Config p}
    (h : c.Alike (Num.Alike .compiling) System.Paired d)
    (hok : Succeeds (trace .solving given' steps d)) :
    List.Forall₂ (Agree (Num.Alike .compiling) System.Paired) (trace .compiling given steps c)
      (trace .solving given' steps d) := by
  induction steps generalizing c d with
  | nil => exact .nil
  | cons step rest ih =>
      obtain ⟨hstep, hrest⟩ := List.forall_mem_cons.mp hok
      have hagree := step.follows given given' h hstep
      exact .cons hagree (ih hagree.config hrest)

theorem trace_lockstep (steps : List (Step p)) {c d : Config p} (h : c.Alike Eq Eq d) :
    List.Forall₂ (Agree Eq Eq) (trace .compiling given steps c)
      (trace .compiling given' steps d) := by
  induction steps generalizing c d with
  | nil => exact .nil
  | cons step rest ih =>
      have hagree := step.lockstep given given' h
      exact .cons hagree (ih hagree.config)

theorem Config.alike_start (h : S System.start System.start) : Config.start.Alike N S .start :=
  ⟨fun _ => .none, h⟩

/-- The shape run and the witness run of one sequence of calls.  When no call
    of the witness run fails, no call of the shape run does; every call gives
    what has the same structure in both, both have then counted alike, every
    variable that was counted has a value, and the check never finds a witness
    of the wrong length.  And whatever values the allocations of two shape runs
    ask for, the calls have the same outcomes and leave the same system, with
    its rows and their names. -/
theorem runs_simulate (steps : List (Step p)) :
    (Succeeds (trace .solving given' steps .start) →
      Succeeds (trace .compiling given steps .start) ∧
      List.Forall₂ (fun r r' => Agree (Num.Alike .compiling) System.Paired r r' ∧
          ∀ expected actual, r.2.system.shape.check r'.2.system.witness
            ≠ .error (.invalidWitnessLength expected actual))
        (trace .compiling given steps .start) (trace .solving given' steps .start)) ∧
    ∀ other : Supply p, List.Forall₂ (Agree Eq Eq) (trace .compiling given steps .start)
      (trace .compiling other steps .start) := by
  constructor
  · intro hok
    have hruns := trace_follows given given' steps (Config.alike_start System.paired_start) hok
    refine ⟨hok.of_agree hruns, hruns.imp fun r r' hagree => ⟨hagree, ?_⟩⟩
    exact hagree.config.system.check_ne
  · intro other
    exact trace_lockstep given other steps (Config.alike_start rfl)

end Steps

/-- Two numbers are added, and the sum is written to a digest as a byte. -/
def writeSum : List (Step Moduli.bn256) :=
  [.call ["x"] (.alloc 0) .unit 0, .call ["y"] (.allocInput 1) .unit 1,
    .call ["sum"] .add (.pair (.reg .num 0) (.reg .num 1)) 2,
    .call ["byte"] (.fromNum 8) (.reg .num 2) 3, .call [] (.free .digest) .unit 4,
    .hash ["digest"] .write 4 (.cons (.reg (.bits 8) 3) (.nil (.bits 8))) 5]

theorem runs_simulate_writeSum :
    let blank : Supply Moduli.bn256 := ⟨fun _ => none, fun _ => none, fun _ _ => none⟩
    let known : Supply Moduli.bn256 := ⟨fun i => some (Fp.ofNat (40 + i)), fun _ => none,
      fun _ _ => none⟩
    Succeeds (trace .solving known writeSum .start) ∧
      Succeeds (trace .compiling blank writeSum .start) ∧
      List.Forall₂ (Agree Eq Eq) (trace .compiling blank writeSum .start)
        (trace .compiling known writeSum .start) := by
  intro blank known
  have hok : Succeeds (trace .solving known writeSum .start) := by decide +kernel
  obtain ⟨hsimulates, halike⟩ := runs_simulate blank known writeSum
  exact ⟨hok, (hsimulates hok).1, halike known⟩

end RankOne.Script
