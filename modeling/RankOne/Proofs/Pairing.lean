import RankOne.Proofs.Follow
import RankOne.Proofs.Labels

/-!
# Pairing — the shape and the witness of the same calls

    A compiling run has the rows and a solving run the values; a tracing run
    of the same circuit has both.  A circuit that is honest in the tracing run
    therefore compiles and solves side by side, and the values of the one
    satisfy the rows of the other.
-/

namespace RankOne

variable {p : Nat}

/-- A witness is accepted when it has the right lengths and satisfies every
    row. -/
theorem Shape.check_eq_ok [Modulus p] {shape : Shape p} {w : Witness p} :
    shape.check w = .ok () ↔ w.aux.size = shape.numAux ∧ w.inputs.size = shape.numInputs + 1 ∧
      ∀ row ∈ shape.rows, row.Holds w.value := by
  have hrows : shape.firstFailing? w.value = none ↔ ∀ row ∈ shape.rows, row.Holds w.value := by
    rw [firstFailing?, Array.findIdx?_eq_none_iff]
    simp
  rw [← hrows]
  rw [check]
  by_cases haux : w.aux.size = shape.numAux
  · rw [if_neg (not_not.mpr haux)]
    by_cases hinputs : w.inputs.size = shape.numInputs + 1
    · rw [if_neg (not_not.mpr hinputs)]
      cases shape.firstFailing? w.value with
      | none => exact ⟨fun _ => ⟨haux, hinputs, rfl⟩, fun _ => rfl⟩
      | some i => exact ⟨nofun, fun h => nomatch h.2.2⟩
    · rw [if_pos hinputs]
      exact ⟨nofun, fun h => absurd h.2.1 hinputs⟩
  · rw [if_pos haux]
    exact ⟨nofun, fun h => absurd h.1 haux⟩

/-- A witness of the right lengths is never refused for its length. -/
theorem Shape.check_ne_invalidWitnessLength [Modulus p] {shape : Shape p} {w : Witness p}
    (haux : w.aux.size = shape.numAux) (hinputs : w.inputs.size = shape.numInputs + 1)
    (expected actual : Nat) : shape.check w ≠ .error (.invalidWitnessLength expected actual) := by
  rw [check, if_neg (not_not.mpr haux), if_neg (not_not.mpr hinputs)]
  cases shape.firstFailing? w.value with
  | some i => nofun
  | none => nofun

namespace System

/-- The variable has been counted. -/
def Allocated (s : System p) : Variable → Prop
  | .input i => i ≤ s.numInputs
  | .aux i => i < s.numAux

/-- A system that was compiled and one that was solved have counted alike, and
    every variable has a value. -/
structure Paired (s u : System p) : Prop where
  numAux : u.numAux = s.numAux
  numInputs : u.numInputs = s.numInputs
  balanced : u.Balanced

/-- The rows and paths of the one and the values of the other. -/
def merge (s u : System p) : System p := { s with aux := u.aux, inputs := u.inputs }

namespace Paired

variable {s u : System p}

theorem balanced_merge (h : s.Paired u) : (s.merge u).Balanced :=
  ⟨h.balanced.aux.trans h.numAux, h.balanced.inputs.trans (congrArg (· + 1) h.numInputs)⟩

theorem beside_compiling (s u : System p) : s.Beside .compiling .tracing (s.merge u) :=
  ⟨rfl, rfl, fun _ _ => rfl, fun _ _ => rfl, Bool.false_ne_true.elim, Bool.false_ne_true.elim⟩

theorem beside_solving (h : s.Paired u) : u.Beside .solving .tracing (s.merge u) :=
  ⟨h.numAux, h.numInputs, Bool.false_ne_true.elim, Bool.false_ne_true.elim, fun _ => rfl,
    fun _ => rfl⟩

/-- What both runs do leaves them paired: each counts, and the run that solves
    keeps one value for each variable. -/
theorem kept : Kept (p := p) .compiling .solving Paired where
  numAux h := h.numAux.symm
  numInputs h := h.numInputs.symm
  rename h _ := ⟨h.numAux, h.numInputs, h.balanced⟩
  addRow h _ _ _ _ := ⟨h.numAux, h.numInputs, h.balanced⟩
  growAux {s u} h v x _ hx := by
    obtain ⟨x, rfl⟩ := Option.ne_none_iff_exists'.mp (hx rfl)
    rw [growAux_of_not rfl, growAux_some rfl]
    refine ⟨congrArg (· + 1) h.numAux, h.numInputs, ?_, h.balanced.inputs⟩
    show (u.aux.push x).size = u.numAux + 1
    rw [Array.size_push, h.balanced.aux]
  growInput {s u} h v x _ hx := by
    obtain ⟨x, rfl⟩ := Option.ne_none_iff_exists'.mp (hx rfl)
    rw [growInput_of_not rfl, growInput_some rfl]
    refine ⟨h.numAux, congrArg (· + 1) h.numInputs, h.balanced.aux, ?_⟩
    show (u.inputs.push x).size = u.numInputs + 1 + 1
    rw [Array.size_push, h.balanced.inputs]

variable [Modulus p]

/-- A witness is not refused for its length by the shape that it is paired with. -/
theorem check_ne (h : s.Paired u) (expected actual : Nat) :
    s.shape.check u.witness ≠ .error (.invalidWitnessLength expected actual) :=
  Shape.check_ne_invalidWitnessLength (h.balanced.aux.trans h.numAux)
    (h.balanced.inputs.trans (congrArg (· + 1) h.numInputs)) expected actual

/-- The values that were computed are those of any assignment that fits. -/
theorem value_eq (h : s.Paired u) {z : Variable → Fp p} (hz : u.witness.Fits z) {v : Variable}
    (hv : s.Allocated v) : u.witness.value v = z v := by
  cases v with
  | input i =>
      have hi : i < u.inputs.size := by
        rw [h.balanced.inputs, h.numInputs]
        exact Nat.lt_succ_of_le hv
      have hget : u.inputs[i]? = some u.inputs[i] := Array.getElem?_eq_getElem hi
      show u.inputs.getD i 0 = _
      rw [Array.getD_eq_getD_getElem?, hget, hz.input i _ hget]
      rfl
  | aux i =>
      have hi : i < u.aux.size := by
        rw [h.balanced.aux, h.numAux]
        exact hv
      have hget : u.aux[i]? = some u.aux[i] := Array.getElem?_eq_getElem hi
      show u.aux.getD i 0 = _
      rw [Array.getD_eq_getD_getElem?, hget, hz.aux i _ hget]
      rfl

/-- A variable has the value that an assignment that fits gives it. -/
theorem live (h : s.Paired u) {z : Variable → Fp p} (hz : u.witness.Fits z) {v : Variable}
    (hv : s.Allocated v) : Num.Live u.witness ⟨v, some (z v)⟩ (z v) := by
  refine ⟨rfl, fun z' hz' => ?_⟩
  rw [Num.lc, LinComb.eval_ofVar, ← h.value_eq hz' hv, h.value_eq hz hv]

/-- The values of a later witness fit themselves, and agree with those of the
    earlier one. -/
theorem fits_value (h : s.Paired u) {z : Variable → Fp p} (hz : u.witness.Fits z)
    {w : Witness p} (hle : u.witness ≤ w) : w.Fits w.value := by
  have hpos : 0 < u.inputs.size := by
    rw [h.balanced.inputs]
    exact Nat.succ_pos _
  have hget : u.inputs[0]? = some u.inputs[0] := Array.getElem?_eq_getElem hpos
  have hone : u.inputs[0] = 1 := (hz.input 0 _ hget).symm.trans hz.one
  rw [hone] at hget
  exact Witness.fits_value (Witness.getElem?_mono hle.inputs hget)

theorem later_value_eq (h : s.Paired u) {z : Variable → Fp p} (hz : u.witness.Fits z)
    {w : Witness p} (hle : u.witness ≤ w) {v : Variable} (hv : s.Allocated v) :
    w.value v = z v := by
  rw [← h.value_eq hz hv, h.value_eq ((h.fits_value hz hle).mono hle) hv]

end Paired

/-- The system with the values that an assignment gives its variables. -/
def valued (s : System p) (z : Variable → Fp p) : System p :=
  { s with
    aux := Array.ofFn fun i : Fin s.numAux => z (.aux i)
    inputs := Array.ofFn fun i : Fin (s.numInputs + 1) => z (.input i) }

theorem paired_valued (s : System p) (z : Variable → Fp p) : s.Paired (s.valued z) :=
  ⟨rfl, rfl, Array.size_ofFn, Array.size_ofFn⟩

theorem fits_valued [Modulus p] (s : System p) {z : Variable → Fp p} (one : z .one = 1) :
    (s.valued z).witness.Fits z where
  one := one
  aux i v hv := by
    change (Array.ofFn fun i : Fin s.numAux => z (.aux i))[i]? = some v at hv
    obtain ⟨hi, hget⟩ := Array.getElem?_eq_some_iff.mp hv
    rw [← hget, Array.getElem_ofFn]
  input i v hv := by
    change (Array.ofFn fun i : Fin (s.numInputs + 1) => z (.input i))[i]? = some v at hv
    obtain ⟨hi, hget⟩ := Array.getElem?_eq_some_iff.mp hv
    rw [← hget, Array.getElem_ofFn]

theorem paired_start [Modulus p] : (start : System p).Paired start := ⟨rfl, rfl, rfl, rfl⟩

end System

namespace Build

variable [Modulus p] {ε α β : Type}

/-- Compiling and solving a circuit that is honest: both runs give a result,
    they stay paired, and the values of the one satisfy the rows of the
    other. -/
theorem Honest.paired {x : Build p ε α} {body : Build p ε β} {Q : Witness p → β → Prop}
    {R : α → β → Prop} {R' : β → β → Prop} {s u : System p} (hbody : Honest u.witness body Q)
    (hx : Follows .compiling .tracing x body R) (hself : Follows .solving .tracing body body R')
    (h : s.Paired u) :
    ∃ a s' b u' c, x .compiling s = .ok a s' ∧ body .solving u = .ok b u' ∧ s'.Paired u' ∧
      u.witness ≤ u'.witness ∧ s.rows.toList <+: s'.rows.toList ∧
      (∀ z, u'.witness.Fits z → s'.HoldsSince s z) ∧ R a c ∧ R' b c ∧ Q u'.witness c := by
  obtain ⟨c, t', hrun, hle, hbal, hz, hQ⟩ := hbody (s.merge u) le_rfl h.balanced_merge
  -- the compiling and the solving run each follow one that does both
  obtain ⟨a, s', hcompile, hs', hac⟩ := hx.beside (System.Paired.beside_compiling s u) hrun
  obtain ⟨b, u', hsolve, hu', hbc⟩ := hself.beside h.beside_solving hrun
  -- the values of the run that does both are those of the solving one, its rows the other
  have hwitness : u'.witness = t'.witness := by
    show Witness.mk u'.aux u'.inputs = ⟨t'.aux, t'.inputs⟩
    rw [hu'.aux rfl, hu'.inputs rfl]
  have hpaired : s'.Paired u' := by
    refine ⟨hu'.numAux.trans hs'.numAux.symm, hu'.numInputs.trans hs'.numInputs.symm, ?_, ?_⟩
    · rw [hu'.aux rfl, hu'.numAux, hbal.aux]
    · rw [hu'.inputs rfl, hu'.numInputs, hbal.inputs]
  refine ⟨a, s', b, u', c, hcompile, hsolve, hpaired, ?_, ?_, fun z hfits => ?_, hac, hbc, ?_⟩
  · rw [hwitness]
    have hmerge : (s.merge u).witness ≤ t'.witness := System.witness_mono hle
    exact hmerge
  · rw [hs'.rows rfl rfl]
    exact hle.rows
  · rw [hwitness] at hfits
    exact (System.holdsSince_congr rfl (hs'.rows rfl rfl) z).mpr (hz z hfits)
  · exact hQ _ hwitness.ge

end Build

/-! ## Shape and witness -/

namespace System

/-- A compiled system and a solved one between two circuits: they are paired,
    what was solved so far satisfies what was compiled, and no name that begins
    with one of the stems `S` is in the way. -/
structure Ready [Modulus p] (S : List String) (s u : System p) : Prop where
  paired : s.Paired u
  rows : ∀ z, u.witness.Fits z → ∀ row ∈ s.rows, row.Holds z
  one : u.inputs[0]? = some 1
  fault : s.naming.fault = none
  free : ∀ l : Naming.Label, l.stem ∈ S → l.name ∉ s.naming.inner.names

theorem ready_start [Modulus p] {S : List String} (h : "ONE" ∉ S) :
    Ready S (start : System p) start where
  paired := paired_start
  rows _ _ _ hrow := absurd hrow (Array.not_mem_empty _)
  one := rfl
  fault := rfl
  free _ hl := Naming.not_mem_start fun heq => h (heq ▸ hl)

end System

namespace Build

variable [Modulus p] {ε α : Type}

/-- Both runs give a result, that of the solved one has `Q`, and its values are
    accepted by the shape of the compiled one. -/
def Accepted (s u : System p) (x body : Build p ε α) (Q : Witness p → α → Prop) : Prop :=
  ∃ a s' b u', x .compiling s = .ok a s' ∧ body .solving u = .ok b u' ∧ Q u'.witness b ∧
    s'.finish = .ok s'.shape ∧ s'.shape.check u'.witness = .ok ()

theorem Honest.accepted {S : List String} {s u : System p} {x body : Build p ε α}
    {Q : Witness p → α → Prop} {R : α → α → Prop} (hbody : Honest u.witness body Q)
    (hx : Follows .compiling .tracing x body R)
    (hself : Follows .solving .tracing body body (· = ·)) (hnames : Labelled S x fun _ => True)
    (h : s.Ready S u) : Accepted s u x body Q := by
  obtain ⟨a, s', b, u', _, hcompile, hsolve, hpaired, hle, hprefix, hrows, _, rfl, hQ⟩ :=
    hbody.paired hx hself h.paired
  refine ⟨a, s', b, u', hcompile, hsolve, hQ, ?_, Shape.check_eq_ok.mpr ⟨?_, ?_, ?_⟩⟩
  · obtain ⟨a', s'', hcompile', hfault, _⟩ := hnames.fault_eq h.free
    obtain ⟨rfl, rfl⟩ := EStateM.Result.ok.inj (hcompile.symm.trans hcompile')
    rw [System.finish, hfault, h.fault]
  · exact hpaired.balanced.aux.trans hpaired.numAux
  · exact hpaired.balanced.inputs.trans (congrArg (· + 1) hpaired.numInputs)
  · have hfits : u'.witness.Fits u'.witness.value :=
      Witness.fits_value (Witness.getElem?_mono hle.inputs h.one)
    exact System.holds_of_holdsSince hprefix (h.rows _ (hfits.mono hle)) (hrows _ hfits)

end Build

end RankOne
