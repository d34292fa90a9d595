import RankOne.Field.Moduli
import RankOne.Proofs.Pairing
import RankOne.Proofs.Requests

/-!
# Checking — what a shape accepts is what was asked for

    A shape stores merged combinations, looks its variables up in a witness
    and reports the first row that fails.  Whatever calls it was compiled from,
    it settles the constraints as the caller wrote them: every variable of
    every row is found in a witness of the right lengths, so that a row holds
    exactly where its constraint does, and row `i` is the `i`-th constraint.
-/

namespace RankOne

variable {p : Nat}

/-- The variables that a row looks up. -/
def Row.vars (row : Row p) : List Variable := row.a.vars ++ row.b.vars ++ row.c.vars

/-- A row looks up no variable but those that its constraint mentions. -/
theorem Constraint.vars_row [Modulus p] (c : Constraint p) : ∀ v ∈ c.row.vars, v ∈ c.vars := by
  intro v hv
  rcases List.mem_append.mp hv with hv | hv
  · rcases List.mem_append.mp hv with hv | hv
    · exact List.mem_append_left _ (List.mem_append_left _ (c.a.vars_comb v hv))
    · exact List.mem_append_left _ (List.mem_append_right _ (c.b.vars_comb v hv))
  · exact List.mem_append_right _ (c.c.vars_comb v hv)

namespace Witness

/-- The value of a variable, where the witness has one. -/
def value? (w : Witness p) : Variable → Option (Fp p)
  | .input i => w.inputs[i]?
  | .aux i => w.aux[i]?

/-- The assignment agrees with the witness wherever that has a value. -/
def Assigns (w : Witness p) (z : Variable → Fp p) : Prop :=
  ∀ v x, w.value? v = some x → z v = x

/-- The witness has a value for each variable that was counted. -/
theorem exists_value {w : Witness p} {s : System p} (haux : w.aux.size = s.numAux)
    (hinputs : w.inputs.size = s.numInputs + 1) {v : Variable} (hv : s.Allocated v) :
    ∃ x, w.value? v = some x := by
  cases v with
  | input i =>
      have hi : i < w.inputs.size := by
        rw [hinputs]
        exact Nat.lt_succ_of_le hv
      exact ⟨w.inputs[i], Array.getElem?_eq_getElem hi⟩
  | aux i =>
      have hi : i < w.aux.size := by
        rw [haux]
        exact hv
      exact ⟨w.aux[i], Array.getElem?_eq_getElem hi⟩

theorem value_of_value? [Modulus p] {w : Witness p} {v : Variable} {x : Fp p}
    (h : w.value? v = some x) : w.value v = x := by
  cases v with
  | input i =>
      have h : w.inputs[i]? = some x := h
      rw [value, Array.getD_eq_getD_getElem?, h]
      rfl
  | aux i =>
      have h : w.aux[i]? = some x := h
      rw [value, Array.getD_eq_getD_getElem?, h]
      rfl

theorem assigns_value [Modulus p] (w : Witness p) : w.Assigns w.value :=
  fun _ _ => value_of_value?

end Witness

namespace Shape

variable [Modulus p] {shape : Shape p} {w : Witness p}

/-- A witness is refused for its length exactly when one of its two lengths is
    wrong. -/
theorem check_length_iff : (∃ expected actual,
      shape.check w = .error (.invalidWitnessLength expected actual)) ↔
    w.aux.size ≠ shape.numAux ∨ w.inputs.size ≠ shape.numInputs + 1 := by
  constructor
  · rintro ⟨expected, actual, hcheck⟩
    by_contra hno
    obtain ⟨haux, hinputs⟩ := not_or.mp hno
    exact check_ne_invalidWitnessLength (not_not.mp haux) (not_not.mp hinputs) _ _ hcheck
  · intro h
    by_cases haux : w.aux.size = shape.numAux
    · have hinputs := h.resolve_left (not_not.mpr haux)
      exact ⟨_, _, by rw [check, if_neg (not_not.mpr haux), if_pos hinputs]⟩
    · exact ⟨_, _, by rw [check, if_pos haux]⟩

theorem firstFailing?_eq_some {i : Nat} {row : Row p} (hrow : shape.rows[i]? = some row)
    {z : Variable → Fp p} (hfails : ¬row.Holds z)
    (hbefore : ∀ j < i, ∀ row', shape.rows[j]? = some row' → row'.Holds z) :
    shape.firstFailing? z = some i := by
  obtain ⟨hi, rfl⟩ := Array.getElem?_eq_some_iff.mp hrow
  refine Array.findIdx?_eq_some_iff_getElem.mpr ⟨hi, ?_, fun j hj => ?_⟩
  · rw [decide_eq_false hfails]
    rfl
  · have hj' : j < shape.rows.size := hj.trans hi
    have hholds := hbefore j hj _ (Array.getElem?_eq_getElem hj')
    rw [decide_eq_true hholds]
    exact Bool.false_ne_true

/-- The report on a witness of the right lengths names the first row that
    fails. -/
theorem check_eq_error {i : Nat} {row : Row p} (haux : w.aux.size = shape.numAux)
    (hinputs : w.inputs.size = shape.numInputs + 1) (hrow : shape.rows[i]? = some row)
    (hfails : ¬row.Holds w.value)
    (hbefore : ∀ j < i, ∀ row', shape.rows[j]? = some row' → row'.Holds w.value) :
    shape.check w = .error (.unsatisfied s!"constraint {i} ({row.path}) is unsatisfied") := by
  rw [check, if_neg (not_not.mpr haux), if_neg (not_not.mpr hinputs),
    firstFailing?_eq_some hrow hfails hbefore]
  show Except.error (shape.failure i) = _
  rw [failure, path?, hrow]
  rfl

/-- What a shape says of a witness of the right lengths: every lookup finds a
    value, and under any assignment that agrees with the witness the answer is
    that on the constraints as they were written. -/
structure Settles (shape : Shape p) (w : Witness p) (written : List (Constraint p)) : Prop where
  inRange : ∀ row ∈ shape.rows, ∀ v ∈ row.vars, ∃ x, w.value? v = some x
  accepts : ∀ z, w.Assigns z → (shape.check w = .ok () ↔ ∀ c ∈ written, c.Holds z)
  names : ∀ z, w.Assigns z → ∀ (i : Nat) (c : Constraint p), written[i]? = some c → ¬c.Holds z →
    (∀ j < i, ∀ c' : Constraint p, written[j]? = some c' → c'.Holds z) →
    shape.check w = .error (.unsatisfied s!"constraint {i} ({c.use.path}) is unsatisfied")

end Shape

namespace Request

variable [Modulus p] {requests : List (Request p)} {s : System p}

theorem allocated_answer {request : Request p} {v : Variable} (h : request.answer s = some v) :
    (request.perform s).Allocated v := by
  cases request with
  | alloc name value =>
      obtain rfl := Option.some.inj h
      exact Nat.lt_succ_self _
  | allocInput name value =>
      obtain rfl := Option.some.inj h
      exact Nat.le_refl _
  | enforce name a b c => exact nomatch h
  | enter name => exact nomatch h
  | leave => exact nomatch h

/-- Counts only grow. -/
theorem allocated_after {v : Variable} (h : s.Allocated v) : (after requests s).Allocated v := by
  cases v with
  | input i =>
      have hgrown : s.numInputs ≤ (after requests s).numInputs :=
        le_of_le_of_eq (Nat.le_add_right _ _) numInputs_after.symm
      exact le_trans h hgrown
  | aux i =>
      have hgrown : s.numAux ≤ (after requests s).numAux :=
        le_of_le_of_eq (Nat.le_add_right _ _) numAux_after.symm
      exact lt_of_lt_of_le h hgrown

/-- A variable that a call has returned is there in the end. -/
theorem allocated_of_mem_answers {v : Variable} (h : some v ∈ answers s requests) :
    (after requests s).Allocated v := by
  induction requests generalizing s with
  | nil => exact nomatch h
  | cons request rest ih =>
      show (after rest (request.perform s)).Allocated v
      rcases List.mem_cons.mp h with h | h
      · exact allocated_after (allocated_answer h.symm)
      · exact ih h

/-- The caller uses the constant one and the variables that it was given. -/
def Grounded (requests : List (Request p)) : Prop :=
  ∀ c ∈ constraints [] requests, ∀ v ∈ c.vars, v = .one ∨ some v ∈ answers .start requests

theorem Grounded.allocated (h : Grounded requests) {c : Constraint p}
    (hc : c ∈ constraints [] requests) {v : Variable} (hv : v ∈ c.vars) :
    (after requests .start).Allocated v := by
  rcases h c hc v hv with rfl | hmem
  · exact Nat.zero_le _
  · exact allocated_of_mem_answers hmem

/-- A row is stored for each constraint, and in its place. -/
theorem rows_start (requests : List (Request p)) (i : Nat) :
    (after requests (System.start : System p)).rows[i]?
      = (constraints [] requests)[i]?.map Constraint.row := by
  rw [← Array.getElem?_toList, rows_after_start, List.getElem?_map]

theorem mem_rows_start {row : Row p}
    (hrow : row ∈ (after requests (System.start : System p)).rows) :
    ∃ c ∈ constraints [] requests, c.row = row := by
  rwa [← Array.mem_toList_iff, rows_after_start, List.mem_map] at hrow

theorem Grounded.settles (h : Grounded requests) {w : Witness p}
    (haux : w.aux.size = (after requests (System.start : System p)).numAux)
    (hinputs : w.inputs.size = (after requests (System.start : System p)).numInputs + 1) :
    (after requests .start).shape.Settles w (constraints [] requests) := by
  have hfound : ∀ c ∈ constraints [] requests, ∀ v ∈ c.vars, ∃ x, w.value? v = some x :=
    fun c hc v hv => Witness.exists_value haux hinputs (h.allocated hc hv)
  -- an assignment that agrees with the witness gives each constraint the values that its row has
  have hholds : ∀ z, w.Assigns z → ∀ c ∈ constraints [] requests,
      (c.row.Holds w.value ↔ c.Holds z) := by
    intro z hz c hc
    rw [c.holds_row]
    refine Constraint.holds_congr fun v hv => ?_
    obtain ⟨x, hx⟩ := hfound c hc v hv
    rw [Witness.value_of_value? hx, hz v x hx]
  refine ⟨fun row hrow v hv => ?_, fun z hz => ?_, fun z hz i c hc hfails hbefore => ?_⟩
  · obtain ⟨c, hc, rfl⟩ := mem_rows_start hrow
    exact hfound c hc v (c.vars_row v hv)
  · rw [Shape.check_eq_ok]
    constructor
    · rintro ⟨-, -, hrows⟩ c hc
      obtain ⟨i, hi⟩ := List.mem_iff_getElem?.mp hc
      refine (hholds z hz c hc).mp (hrows c.row (Array.mem_of_getElem? (i := i) ?_))
      exact (rows_start requests i).trans (congrArg (Option.map Constraint.row) hi)
    · intro hwritten
      refine ⟨haux, hinputs, fun row hrow => ?_⟩
      obtain ⟨c, hc, rfl⟩ := mem_rows_start hrow
      exact (hholds z hz c hc).mpr (hwritten c hc)
  · have hrow : (after requests (System.start : System p)).shape.rows[i]? = some c.row :=
      (rows_start requests i).trans (congrArg (Option.map Constraint.row) hc)
    have hfailing : ¬c.row.Holds w.value :=
      fun hrowHolds => hfails ((hholds z hz c (List.mem_of_getElem? hc)).mp hrowHolds)
    have hfirst : ∀ j < i, ∀ row,
        (after requests (System.start : System p)).shape.rows[j]? = some row →
          row.Holds w.value := by
      intro j hj row hrow
      obtain ⟨c', hc', rfl⟩ := Option.map_eq_some_iff.mp ((rows_start requests j).symm.trans hrow)
      exact (hholds z hz c' (List.mem_of_getElem? hc')).mpr (hbefore j hj c' hc')
    -- the row has the constraint's path, so this is the message that is asked for
    have hreport := Shape.check_eq_error haux hinputs hrow hfailing hfirst
    exact hreport

end Request

open Request in
/-- A shape settles the constraints that were asked for.  A witness is refused
    for its length when the number of its private or of its public values is
    wrong, the private ones first; otherwise it is accepted where every
    constraint holds as it was written, and else the first that does not is
    named with its path. -/
theorem check_of_grounded [Modulus p] {requests : List (Request p)} (h : Grounded requests) :
    ∃ s, Build.start .compiling (requests.mapM issue) = .ok (answers .start requests) s ∧
      s.shape.numAux = requests.countP isAlloc ∧
      s.shape.numInputs = requests.countP isAllocInput ∧
      ∀ w : Witness p,
        ((∃ expected actual, s.shape.check w = .error (.invalidWitnessLength expected actual)) ↔
          w.aux.size ≠ s.shape.numAux ∨ w.inputs.size ≠ s.shape.numInputs + 1) ∧
        (w.aux.size ≠ s.shape.numAux →
          s.shape.check w = .error (.invalidWitnessLength s.shape.numAux w.aux.size)) ∧
        (w.aux.size = s.shape.numAux → w.inputs.size ≠ s.shape.numInputs + 1 →
          s.shape.check w
            = .error (.invalidWitnessLength (s.shape.numInputs + 1) w.inputs.size)) ∧
        (w.aux.size = s.shape.numAux → w.inputs.size = s.shape.numInputs + 1 →
          s.shape.Settles w (constraints [] requests)) := by
  refine ⟨_, issue_all_compiling requests .start, ?_, ?_, fun w => ⟨Shape.check_length_iff,
    fun haux => ?_, fun haux hinputs => ?_, fun haux hinputs => ?_⟩⟩
  · exact numAux_after.trans (Nat.zero_add _)
  · exact numInputs_after.trans (Nat.zero_add _)
  · rw [Shape.check, if_pos haux]
  · rw [Shape.check, if_neg (not_not.mpr haux), if_pos hinputs]
  · exact h.settles haux hinputs

/-- Calls for a number and for its double, which is asked to be `x + y + x - y`. -/
def doubling : List (Request Moduli.fermat) :=
  let x := Variable.aux 0
  let y := Variable.input 1
  [.enter "in", .alloc "x" none, .leave, .allocInput "y" none,
    .enforce "twice" (.sub (.addTerm (.addTerm (.single 1 x) 1 y) 1 x) (.single 1 y))
      (.single 1 .one) (.single 1 y)]

open Request in
theorem check_doubling : Grounded doubling ∧ ∃ s,
    Build.start .compiling (doubling.mapM issue) = .ok (answers .start doubling) s ∧
      s.shape.check ⟨#[.ofNat 3], #[1, .ofNat 6]⟩ = .ok () ∧
      s.shape.check ⟨#[.ofNat 3], #[1, .ofNat 7]⟩
        = .error (.unsatisfied "constraint 0 (twice) is unsatisfied") := by
  have hgrounded : Grounded doubling := by
    unfold Grounded
    decide
  obtain ⟨s, hrun, haux, hinputs, hcheck⟩ := check_of_grounded hgrounded
  refine ⟨hgrounded, s, hrun, ?_, ?_⟩
  · obtain ⟨-, -, -, hsettles⟩ := hcheck ⟨#[.ofNat 3], #[1, .ofNat 6]⟩
    refine ((hsettles haux.symm (congrArg (· + 1) hinputs.symm)).accepts _
      (Witness.assigns_value _)).mpr ?_
    decide
  · obtain ⟨-, -, -, hsettles⟩ := hcheck ⟨#[.ofNat 3], #[1, .ofNat 7]⟩
    have hlengths := hsettles haux.symm (congrArg (· + 1) hinputs.symm)
    have hreport := hlengths.names _ (Witness.assigns_value _) 0 _ rfl (by decide) nofun
    rw [hreport]
    rfl

end RankOne
