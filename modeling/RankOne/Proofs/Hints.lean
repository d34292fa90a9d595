import RankOne.Field.Moduli
import RankOne.Hint
import RankOne.Proofs.Run

/-!
# Supplied values — all of a hint's outputs, or none

    A hint is run when every input is known, on the integers that stand for
    the inputs.  It may fail, or give another number of outputs than it
    promises, or a negative one behind any number of good ones; and a run that
    solves cannot go on without values.  Each of these is noticed before the
    first variable is allocated, so that a refusal leaves a system as it was.

    `Refusal` lists the ways in which a hint is refused, and `Supplied` says
    what there is where it is not: fresh private variables, numbered in the
    order of the outputs, and the outputs modulo the field's order as their
    values.
-/

namespace RankOne

variable {p : Nat}

namespace Hint

/-- The inputs have the values. -/
def Known (xs : List (Num p)) (vs : List (Fp p)) : Prop :=
  List.Forall₂ (fun x v => x.value = some v) xs vs

/-- What the hint is run on: the canonical integers of the inputs. -/
def integers (vs : List (Fp p)) : List Int := vs.map fun v => (v.val : Int)

/-- The ways in which a run in a mode is refused: the hint itself fails; it
    gives another number of outputs than it promises; an output is negative, of
    which the first is reported; or a run that solves has no value for an
    output. -/
inductive Refusal (h : Hint) (mode : Mode) (xs : List (Num p)) : GadgetError → Prop where
  | compute {vs : List (Fp p)} {e : HintError} (hvs : Known xs vs)
      (he : h.compute (integers vs) = .error e) : Refusal h mode xs (.hint e)
  | arity {vs : List (Fp p)} {outs : List Int} (hvs : Known xs vs)
      (houts : h.compute (integers vs) = .ok outs) (hlength : outs.length ≠ h.numOutputs) :
      Refusal h mode xs (.hint (.invalidArity h.name h.numOutputs outs.length))
  | negative {vs : List (Fp p)} {good rest : List Int} {z : Int} (hvs : Known xs vs)
      (houts : h.compute (integers vs) = .ok (good ++ z :: rest))
      (hlength : (good ++ z :: rest).length = h.numOutputs) (hgood : ∀ y ∈ good, 0 ≤ y)
      (hz : z < 0) : Refusal h mode xs (.hint (.notAFieldElement (toString z)))
  | missing (hsolves : mode = .solving) (hunknown : ∃ x ∈ xs, x.value = none)
      (hpos : 0 < h.numOutputs) :
      Refusal h mode xs (.synthesis SynthesisError.assignmentMissing.message)

/-- The numbers are new private variables in their order, and nothing else was
    added but names. -/
structure Fresh (n : Nat) (s : System p) (ys : List (Num p)) (s' : System p) : Prop where
  vars : ys.map Num.var = (List.range' s.numAux n).map Variable.aux
  numAux : s'.numAux = s.numAux + n
  numInputs : s'.numInputs = s.numInputs
  rows : s'.rows = s.rows
  inputs : s'.inputs = s.inputs

/-- What a run has done that is not refused: the outputs are new variables, and
    in a run that solves they have the values of the hint's outputs, taken
    modulo the order of the field. -/
structure Supplied (h : Hint) (mode : Mode) (xs : List (Num p)) (s : System p)
    (ys : List (Num p)) (s' : System p) : Prop extends Fresh h.numOutputs s ys s' where
  values : mode = .solving → ∀ vs, Known xs vs → ∃ outs ws, h.compute (integers vs) = .ok outs ∧
    ws.map (fun w => (w.val : Int)) = outs.map (· % (p : Int)) ∧
    ys.map Num.value = ws.map some ∧ s'.aux.toList = s.aux.toList ++ ws

/-! ## Inputs -/

theorem mapM_value_eq_some {xs : List (Num p)} {vs : List (Fp p)} :
    xs.mapM Num.value = some vs ↔ Known xs vs := by
  induction xs generalizing vs with
  | nil =>
      constructor
      · intro h
        obtain rfl : [] = vs := Option.some.inj h
        exact .nil
      · rintro ⟨⟩
        rfl
  | cons x rest ih =>
      rw [List.mapM_cons]
      constructor
      · intro h
        obtain ⟨v, hv, h⟩ := Option.bind_eq_some_iff.mp h
        obtain ⟨vs', hvs', h⟩ := Option.bind_eq_some_iff.mp h
        obtain rfl : v :: vs' = vs := Option.some.inj h
        exact .cons hv (ih.mp hvs')
      · rintro (_ | ⟨hv, hvs⟩)
        rw [hv, ih.mpr hvs]
        rfl

/-- Inputs are all known, or one of them is not. -/
theorem known_or_unknown (xs : List (Num p)) :
    (∃ vs, Known xs vs) ∨ ∃ x ∈ xs, x.value = none := by
  induction xs with
  | nil => exact .inl ⟨[], .nil⟩
  | cons x rest ih =>
      cases hx : x.value with
      | none => exact .inr ⟨x, List.mem_cons_self, hx⟩
      | some v =>
          rcases ih with ⟨vs, hvs⟩ | ⟨y, hy, hnone⟩
          · exact .inl ⟨v :: vs, .cons hx hvs⟩
          · exact .inr ⟨y, List.mem_cons_of_mem _ hy, hnone⟩

theorem not_unknown {xs : List (Num p)} {vs : List (Fp p)} (hvs : Known xs vs) :
    ¬∃ x ∈ xs, x.value = none := by
  rintro ⟨x, hx, hnone⟩
  obtain ⟨v, -, hv⟩ := exists_mem_of_forall₂ hvs hx
  exact nomatch hnone.symm.trans hv

theorem mapM_value_eq_none {xs : List (Num p)} (h : ∃ x ∈ xs, x.value = none) :
    xs.mapM Num.value = none := by
  cases hvs : xs.mapM Num.value with
  | none => rfl
  | some vs => exact absurd h (not_unknown (mapM_value_eq_some.mp hvs))

theorem known_unique {xs : List (Num p)} {vs vs' : List (Fp p)} (h : Known xs vs)
    (h' : Known xs vs') : vs = vs' :=
  Option.some.inj ((mapM_value_eq_some.mpr h).symm.trans (mapM_value_eq_some.mpr h'))

variable [Modulus p]

/-! ## Outputs -/

theorem ofInt?_of_neg {z : Int} (h : z < 0) : (Fp.ofInt? z : Option (Fp p)) = none := if_pos h

theorem ofInt?_of_nonneg {z : Int} (h : 0 ≤ z) :
    ∃ w : Fp p, Fp.ofInt? z = some w ∧ (w.val : Int) = z % (p : Int) := by
  refine ⟨.ofNat z.toNat, if_neg (not_lt.mpr h), ?_⟩
  rw [Fp.val_ofNat, Int.natCast_mod, Int.toNat_of_nonneg h]

/-- An integer as a field element, with the error that a hint reports. -/
private def element (z : Int) : Except HintError (Fp p) :=
  match Fp.ofInt? z with
  | some v => .ok v
  | none => .error (.notAFieldElement (toString z))

/-- Outputs that are not negative are taken modulo the order of the field. -/
private theorem mapM_element_of_nonneg {outs : List Int} (h : ∀ z ∈ outs, 0 ≤ z) :
    ∃ ws : List (Fp p), outs.mapM element = .ok ws ∧
      ws.map (fun w => (w.val : Int)) = outs.map (· % (p : Int)) := by
  induction outs with
  | nil => exact ⟨[], rfl, rfl⟩
  | cons z rest ih =>
      obtain ⟨hz, hrest⟩ := List.forall_mem_cons.mp h
      obtain ⟨w, hw, hval⟩ := ofInt?_of_nonneg (p := p) hz
      obtain ⟨ws, hws, hvals⟩ := ih hrest
      refine ⟨w :: ws, ?_, ?_⟩
      · rw [List.mapM_cons, element, hw, hws]
        rfl
      · rw [List.map_cons, List.map_cons, hval, hvals]

/-- The first output that is negative is refused, whatever comes after it. -/
private theorem mapM_element_of_neg {good rest : List Int} {z : Int} (hgood : ∀ y ∈ good, 0 ≤ y)
    (hz : z < 0) : (good ++ z :: rest).mapM (element (p := p))
      = .error (.notAFieldElement (toString z)) := by
  induction good with
  | nil =>
      rw [List.nil_append, List.mapM_cons, element, ofInt?_of_neg hz]
      rfl
  | cons y good ih =>
      obtain ⟨hy, hgood⟩ := List.forall_mem_cons.mp hgood
      obtain ⟨w, hw, -⟩ := ofInt?_of_nonneg (p := p) hy
      rw [List.cons_append, List.mapM_cons, element, hw, ih hgood]
      rfl

theorem nonneg_or_first_neg (outs : List Int) : (∀ z ∈ outs, 0 ≤ z) ∨
    ∃ good z rest, outs = good ++ z :: rest ∧ (∀ y ∈ good, 0 ≤ y) ∧ z < 0 := by
  induction outs with
  | nil => exact .inl nofun
  | cons z rest ih =>
      rcases lt_or_ge z 0 with hz | hz
      · exact .inr ⟨[], z, rest, rfl, nofun, hz⟩
      · rcases ih with hrest | ⟨good, y, rest', rfl, hgood, hy⟩
        · exact .inl (List.forall_mem_cons.mpr ⟨hz, hrest⟩)
        · exact .inr ⟨z :: good, y, rest', rfl, List.forall_mem_cons.mpr ⟨hz, hgood⟩, hy⟩

section Outcomes

variable {h : Hint} {mode : Mode} {xs : List (Num p)} {vs : List (Fp p)} {outs : List Int}

theorem outputs_of_error {e : HintError} (he : h.compute (integers vs) = .error e) :
    h.outputs vs = .error e := by
  have he : h.compute (vs.map fun v => (v.val : Int)) = .error e := he
  rw [outputs, he]
  rfl

theorem outputs_of_length_ne (houts : h.compute (integers vs) = .ok outs)
    (hlength : outs.length ≠ h.numOutputs) :
    h.outputs vs = .error (.invalidArity h.name h.numOutputs outs.length) := by
  have houts : h.compute (vs.map fun v => (v.val : Int)) = .ok outs := houts
  rw [outputs, houts]
  exact if_pos hlength

private theorem outputs_of_length_eq (houts : h.compute (integers vs) = .ok outs)
    (hlength : outs.length = h.numOutputs) : h.outputs vs = outs.mapM element := by
  have houts : h.compute (vs.map fun v => (v.val : Int)) = .ok outs := houts
  rw [outputs, houts]
  exact if_neg (not_not.mpr hlength)

/-- A hint that is run: its outputs are taken modulo the order of the field, or
    it is refused for inputs with these values. -/
theorem outputs_or_refusal (h : Hint) (mode : Mode) (vs : List (Fp p)) :
    (∃ outs ws, h.compute (integers vs) = .ok outs ∧ ws.length = h.numOutputs ∧
      ws.map (fun w => (w.val : Int)) = outs.map (· % (p : Int)) ∧ h.outputs vs = .ok ws) ∨
    ∃ e, h.outputs vs = .error e ∧ ∀ xs, Known xs vs → Refusal h mode xs (.hint e) := by
  cases houts : h.compute (integers vs) with
  | error e => exact .inr ⟨e, outputs_of_error houts, fun xs hvs => .compute hvs houts⟩
  | ok outs =>
      by_cases hlength : outs.length = h.numOutputs
      · rcases nonneg_or_first_neg outs with hnonneg | ⟨good, z, rest, rfl, hgood, hz⟩
        · obtain ⟨ws, hws, hvals⟩ := mapM_element_of_nonneg (p := p) hnonneg
          refine .inl ⟨outs, ws, rfl, ?_, hvals, (outputs_of_length_eq houts hlength).trans hws⟩
          have hlengths := congrArg List.length hvals
          rw [List.length_map, List.length_map] at hlengths
          exact hlengths.trans hlength
        · refine .inr ⟨_, ?_, fun xs hvs => .negative hvs houts hlength hgood hz⟩
          exact (outputs_of_length_eq houts hlength).trans (mapM_element_of_neg hgood hz)
      · exact .inr ⟨_, outputs_of_length_ne houts hlength, fun xs hvs => .arity hvs houts hlength⟩

/-- On known inputs the outcome is that of the hint. -/
theorem outputValues_of_known (hvs : Known xs vs) :
    h.outputValues xs = (h.outputs vs).map (·.map some) := by
  rw [outputValues, mapM_value_eq_some.mpr hvs]

theorem outputValues_of_outputs {ws : List (Fp p)} (hvs : Known xs vs)
    (hws : h.outputs vs = .ok ws) : h.outputValues xs = .ok (ws.map some) := by
  rw [outputValues_of_known hvs, hws]
  rfl

theorem outputValues_of_unknown (h : Hint) (hunknown : ∃ x ∈ xs, x.value = none) :
    h.outputValues xs = .ok (List.replicate h.numOutputs none) := by
  rw [outputValues, mapM_value_eq_none hunknown]

/-- The outputs are as many as the hint promises. -/
theorem length_of_outputValues {values : List (Option (Fp p))}
    (hok : h.outputValues xs = .ok values) : values.length = h.numOutputs := by
  rcases known_or_unknown xs with ⟨vs, hvs⟩ | hunknown
  · rcases outputs_or_refusal h .solving vs with ⟨_, ws, _, hlength, _, hws⟩ | ⟨e, he, _⟩
    · obtain rfl := Except.ok.inj ((outputValues_of_outputs hvs hws).symm.trans hok)
      rw [List.length_map, hlength]
    · rw [outputValues_of_known hvs, he] at hok
      cases hok
  · obtain rfl := Except.ok.inj ((outputValues_of_unknown h hunknown).symm.trans hok)
    exact List.length_replicate

end Outcomes

/-! ## Allocations -/

omit [Modulus p] in
theorem Fresh.nil (s : System p) : Fresh 0 s [] s := ⟨rfl, rfl, rfl, rfl, rfl⟩

omit [Modulus p] in
theorem Fresh.cons {n : Nat} {s s₁ s' : System p} {y : Num p} {ys : List (Num p)}
    (h : Fresh n s₁ ys s') (hvar : y.var = .aux s.numAux) (hnumAux : s₁.numAux = s.numAux + 1)
    (hnumInputs : s₁.numInputs = s.numInputs) (hrows : s₁.rows = s.rows)
    (hinputs : s₁.inputs = s.inputs) : Fresh (n + 1) s (y :: ys) s' where
  vars := by
    rw [List.range'_succ, List.map_cons, List.map_cons, hvar, h.vars, hnumAux]
  numAux := by
    rw [h.numAux, hnumAux]
    omega
  numInputs := h.numInputs.trans hnumInputs
  rows := h.rows.trans hrows
  inputs := h.inputs.trans hinputs

/-- Allocates one output. -/
def allocate (h : Hint) (x : Option (Fp p) × Nat) : Build p GadgetError (Num p) :=
  Build.within s!"{h.name} output {x.2}" (Num.alloc x.1)

omit [Modulus p] in
/-- A compiling run allocates outputs with or without values. -/
private theorem allocate_compiling (h : Hint) (values : List (Option (Fp p))) (i : Nat)
    (s : System p) : ∃ ys s', (values.zipIdx i).mapM h.allocate .compiling s = .ok ys s' ∧
      Fresh values.length s ys s' := by
  induction values generalizing i s with
  | nil => exact ⟨[], s, rfl, .nil s⟩
  | cons v rest ih =>
      let s₁ := ((s.enter s!"{h.name} output {i}").countAux.claim "num").leave
      obtain ⟨ys, s', hrest, hfresh⟩ := ih (i + 1) s₁
      refine ⟨⟨.aux s.numAux, none⟩ :: ys, s', ?_, hfresh.cons rfl rfl rfl rfl rfl⟩
      rw [List.zipIdx_cons, List.mapM_cons]
      refine Build.bind_eq_ok.mpr ⟨⟨.aux s.numAux, none⟩, s₁, rfl, ?_⟩
      exact Build.bind_eq_ok.mpr ⟨ys, s', hrest, rfl⟩

omit [Modulus p] in
/-- A run that solves keeps the values. -/
private theorem allocate_solving (h : Hint) (ws : List (Fp p)) (i : Nat) (s : System p) :
    ∃ ys s', ((ws.map some).zipIdx i).mapM h.allocate .solving s = .ok ys s' ∧
      Fresh ws.length s ys s' ∧ ys.map Num.value = ws.map some ∧
      s'.aux.toList = s.aux.toList ++ ws := by
  induction ws generalizing i s with
  | nil => exact ⟨[], s, rfl, .nil s, rfl, (List.append_nil _).symm⟩
  | cons w rest ih =>
      let s₁ := s.countAux.pushAux w
      obtain ⟨ys, s', hrest, hfresh, hvalues, haux⟩ := ih (i + 1) s₁
      refine ⟨⟨.aux s.numAux, some w⟩ :: ys, s', ?_, hfresh.cons rfl rfl rfl rfl rfl, ?_, ?_⟩
      · rw [List.map_cons, List.zipIdx_cons, List.mapM_cons]
        refine Build.bind_eq_ok.mpr ⟨⟨.aux s.numAux, some w⟩, s₁, rfl, ?_⟩
        exact Build.bind_eq_ok.mpr ⟨ys, s', hrest, rfl⟩
      · rw [List.map_cons, List.map_cons, hvalues]
      · have hpush : s₁.aux.toList = s.aux.toList ++ [w] := Array.toList_push
        rw [haux, hpush, List.append_assoc]
        rfl

theorem solve_eq (h : Hint) (xs : List (Num p)) {values : List (Option (Fp p))}
    (hvalues : h.outputValues xs = .ok values) : h.solve xs = values.zipIdx.mapM h.allocate := by
  rw [solve, hvalues]
  rfl

/-! ## All or nothing -/

/-- A refusal comes before the first variable, and leaves the system as it
    was. -/
theorem Refusal.solve_eq {h : Hint} {mode : Mode} {xs : List (Num p)} {e : GadgetError}
    (hrefusal : Refusal h mode xs e) (s : System p) : h.solve xs mode s = .error e s := by
  have hhint : ∀ {vs : List (Fp p)} {cause : HintError}, Known xs vs →
      h.outputs vs = .error cause → h.solve xs mode s = .error (.hint cause) s := by
    intro vs cause hvs hcause
    rw [solve, outputValues_of_known hvs, hcause]
    rfl
  cases hrefusal with
  | compute hvs he => exact hhint hvs (outputs_of_error he)
  | arity hvs houts hlength => exact hhint hvs (outputs_of_length_ne houts hlength)
  | negative hvs houts hlength hgood hz =>
      exact hhint hvs ((outputs_of_length_eq houts hlength).trans (mapM_element_of_neg hgood hz))
  | missing hsolves hunknown hpos =>
      obtain ⟨n, hn⟩ := Nat.exists_eq_succ_of_ne_zero hpos.ne'
      rw [h.solve_eq xs (outputValues_of_unknown h hunknown), hn, List.replicate_succ,
        List.zipIdx_cons, List.mapM_cons, Build.bind_apply, hsolves]
      rfl

omit [Modulus p] in
/-- There is no refusal where the inputs are known and the hint keeps its
    promise: as many outputs as it should give, none of them negative. -/
theorem not_refusal {h : Hint} {mode : Mode} {xs : List (Num p)} {vs : List (Fp p)}
    {outs : List Int} (hvs : Known xs vs) (houts : h.compute (integers vs) = .ok outs)
    (hlength : outs.length = h.numOutputs) (hnonneg : ∀ z ∈ outs, 0 ≤ z) (e : GadgetError) :
    ¬Refusal h mode xs e := by
  intro hrefusal
  cases hrefusal with
  | compute hvs' he =>
      rw [known_unique hvs' hvs, houts] at he
      exact nomatch he
  | arity hvs' houts' hne =>
      rw [known_unique hvs' hvs, houts] at houts'
      obtain rfl := Except.ok.inj houts'
      exact hne hlength
  | negative hvs' houts' _ _ hz =>
      rw [known_unique hvs' hvs, houts] at houts'
      obtain rfl := Except.ok.inj houts'
      exact absurd hz (not_lt.mpr (hnonneg _ (List.mem_append_right _ List.mem_cons_self)))
  | missing _ hunknown _ => exact not_unknown hvs hunknown

/-- Without a refusal the outputs are supplied. -/
theorem supplied_of_no_refusal {h : Hint} {mode : Mode} {xs : List (Num p)}
    (hmode : mode ∈ [Mode.compiling, Mode.solving]) (hno : ∀ e, ¬Refusal h mode xs e)
    (s : System p) : ∃ ys s', h.solve xs mode s = .ok ys s' ∧ Supplied h mode xs s ys s' := by
  rcases known_or_unknown xs with ⟨vs, hvs⟩ | hunknown
  · rcases outputs_or_refusal h mode vs with
      ⟨outs, ws, houts, hlength, hvals, hws⟩ | ⟨e, -, he⟩
    · rw [h.solve_eq xs (outputValues_of_outputs hvs hws)]
      rcases List.mem_pair.mp hmode with rfl | rfl
      · obtain ⟨ys, s', hrun, hfresh⟩ := allocate_compiling h (ws.map some) 0 s
        rw [List.length_map, hlength] at hfresh
        exact ⟨ys, s', hrun, hfresh, nofun⟩
      · obtain ⟨ys, s', hrun, hfresh, hys, haux⟩ := allocate_solving h ws 0 s
        rw [hlength] at hfresh
        refine ⟨ys, s', hrun, hfresh, fun _ vs' hvs' => ?_⟩
        obtain rfl := known_unique hvs hvs'
        exact ⟨outs, ws, houts, hvals, hys, haux⟩
    · exact absurd (he xs hvs) (hno _)
  · rw [h.solve_eq xs (outputValues_of_unknown h hunknown)]
    rcases List.mem_pair.mp hmode with rfl | rfl
    · obtain ⟨ys, s', hrun, hfresh⟩ := allocate_compiling h (List.replicate h.numOutputs none) 0 s
      rw [List.length_replicate] at hfresh
      exact ⟨ys, s', hrun, hfresh, nofun⟩
    · -- a run that solves goes on without values only where there is none to compute
      have hnone : h.numOutputs = 0 :=
        Nat.eq_zero_of_not_pos fun hpos => hno _ (.missing rfl hunknown hpos)
      rw [hnone]
      refine ⟨[], s, rfl, ?_, fun _ vs hvs => absurd hunknown (not_unknown hvs)⟩
      rw [hnone]
      exact .nil s

/-- A hint is asked exactly when every input is known: where one is unknown,
    nothing depends on what it computes. -/
theorem solve_independent_iff (h : Hint) (xs : List (Num p)) :
    (∀ f, ({ h with compute := f } : Hint).solve xs = h.solve xs) ↔ ∃ x ∈ xs, x.value = none := by
  constructor
  · intro hsame
    rcases known_or_unknown xs with ⟨vs, hvs⟩ | hunknown
    · -- two hints that fail in different ways are told apart
      have hfails : ∀ e, h.solve xs .compiling .start = .error (.hint e) .start := by
        intro e
        rw [← hsame fun _ => .error e]
        exact (Refusal.compute hvs rfl).solve_eq .start
      have hboth := (hfails .negativeOperand).symm.trans (hfails (.divisorOutOfRange ""))
      exact nomatch hboth
    · exact hunknown
  · intro hunknown f
    have hvalues := outputValues_of_unknown h hunknown
    have hvalues' := outputValues_of_unknown { h with compute := f } hunknown
    rw [solve_eq h xs hvalues, solve_eq _ xs hvalues']
    rfl

/-- Supplying a hint's outputs is all or nothing.  In a run that compiles or
    solves, from any system, either there is a refusal, which is reported and
    leaves the system as it was, or there is none and the outputs are supplied.
    The hint is run exactly when all inputs are known. -/
theorem solve_all_or_nothing (h : Hint) (xs : List (Num p)) :
    (∀ mode ∈ [Mode.compiling, Mode.solving], ∀ s : System p,
      (∃ e, Refusal h mode xs e ∧ h.solve xs mode s = .error e s) ∨
      ((∀ e, ¬Refusal h mode xs e) ∧
        ∃ ys s', h.solve xs mode s = .ok ys s' ∧ Supplied h mode xs s ys s')) ∧
    ((∀ f, ({ h with compute := f } : Hint).solve xs = h.solve xs) ↔
      ∃ x ∈ xs, x.value = none) := by
  refine ⟨fun mode hmode s => ?_, h.solve_independent_iff xs⟩
  by_cases hrefusal : ∃ e, Refusal h mode xs e
  · obtain ⟨e, he⟩ := hrefusal
    exact .inl ⟨e, he, he.solve_eq s⟩
  · have hno := not_exists.mp hrefusal
    exact .inr ⟨hno, supplied_of_no_refusal hmode hno s⟩

/-- Gives numbers with their predecessors, which zero does not have. -/
def predecessor : Hint := ⟨"predecessor", 2, fun xs => .ok (xs.flatMap fun x => [x, x - 1])⟩

/-- Zero is an output that would do, but the negative one behind it is refused
    with it; three has both outputs. -/
theorem solve_predecessor :
    (∃ e, predecessor.solve [⟨.one, some 0⟩] .solving (System.start : System Moduli.fermat)
      = .error e .start) ∧
    ∃ ys s', predecessor.solve [⟨.one, some (.ofNat 3)⟩] .solving
        (System.start : System Moduli.fermat) = .ok ys s' ∧ s'.numAux = 2 ∧
      ys.map Num.value = [some (.ofNat 3), some (.ofNat 2)] := by
  constructor
  · let x : Num Moduli.fermat := ⟨.one, some 0⟩
    have houts : predecessor.compute (integers [(0 : Fp Moduli.fermat)])
        = .ok ([0] ++ -1 :: []) := rfl
    have hrefused : Refusal predecessor .solving [x] (.hint (.notAFieldElement "-1")) :=
      .negative (.cons rfl .nil) houts rfl (by decide) (by decide)
    rcases (solve_all_or_nothing predecessor [x]).1 .solving (by decide) .start with
      ⟨e, -, hrun⟩ | ⟨hno, -⟩
    · exact ⟨e, hrun⟩
    · exact absurd hrefused (hno _)
  · let x : Num Moduli.fermat := ⟨.one, some (.ofNat 3)⟩
    have hknown : Known [x] [.ofNat 3] := .cons rfl .nil
    have hcompute : predecessor.compute (integers [(.ofNat 3 : Fp Moduli.fermat)])
        = .ok [3, 2] := rfl
    rcases (solve_all_or_nothing predecessor [x]).1 .solving (by decide) .start with
      ⟨e, hrefused, -⟩ | ⟨-, ys, s', hrun, hsupplied⟩
    · exact absurd hrefused (not_refusal hknown hcompute rfl (by decide) e)
    · obtain ⟨outs, ws, houts, hws, hvalues, -⟩ := hsupplied.values rfl _ hknown
      refine ⟨ys, s', hrun, hsupplied.numAux, hvalues.trans ?_⟩
      obtain rfl : [3, 2] = outs := Except.ok.inj (hcompute.symm.trans houts)
      have hinj : Function.Injective fun w : Fp Moduli.fermat => (w.val : Int) :=
        fun v w h => Fp.ext_val (Int.ofNat_inj.mp h)
      have hlist : ws = [.ofNat 3, .ofNat 2] := List.map_injective_iff.mpr hinj hws
      rw [hlist]
      rfl

end Hint

end RankOne
