import RankOne.Proofs.Moves
import RankOne.Proofs.Run

/-!
# Requests — calls on a system, in any order

    A circuit is built by five kinds of calls: for a private variable, for a
    public input, for a constraint, and to open or to close a namespace.  A
    `Request` is one of them, with all that the caller passes on, and a list of
    requests is any sequence of calls: names may be malformed or repeated,
    namespaces may be closed that were never opened, and combinations may
    mention a variable many times.

    What a compiling run makes of a list of requests can be read off the list.
    As far as names go, each request is a move (`move`).  Its name is used in
    the namespaces that are open where it is given (`uses`), and each constraint
    is recorded under the path of its name (`constraints`), whether or not a
    name was at fault before.
-/

namespace RankOne

variable {p : Nat}

/-! ## What a caller writes -/

/-- A sum of variables as a caller writes it: nothing in it is merged. -/
inductive LinExpr (p : Nat) where
  | zero
  | single (coeff : Fp p) (var : Variable)
  | addTerm (l : LinExpr p) (coeff : Fp p) (var : Variable)
  | add (l m : LinExpr p)
  | neg (l : LinExpr p)
  | sub (l m : LinExpr p)
  | scale (c : Fp p) (l : LinExpr p)

/-- The variables that a combination has terms for. -/
def LinComb.vars (l : LinComb p) : List Variable := l.terms.map (·.var)

namespace LinExpr

/-- The variables that are written down. -/
def vars : LinExpr p → List Variable
  | .zero => []
  | .single _ var => [var]
  | .addTerm l _ var => var :: l.vars
  | .add l m => l.vars ++ m.vars
  | .neg l => l.vars
  | .sub l m => l.vars ++ m.vars
  | .scale _ l => l.vars

variable [Modulus p]

/-- What is stored: the terms of each variable are merged into one. -/
def comb : LinExpr p → LinComb p
  | .zero => 0
  | .single coeff var => .single coeff var
  | .addTerm l coeff var => l.comb.addTerm coeff var
  | .add l m => l.comb + m.comb
  | .neg l => -l.comb
  | .sub l m => l.comb - m.comb
  | .scale c l => l.comb.scale c

/-- What the sum as it is written is worth. -/
def eval (z : Variable → Fp p) : LinExpr p → Fp p
  | .zero => 0
  | .single coeff var => coeff * z var
  | .addTerm l coeff var => l.eval z + coeff * z var
  | .add l m => l.eval z + m.eval z
  | .neg l => -l.eval z
  | .sub l m => l.eval z - m.eval z
  | .scale c l => c * l.eval z

/-- Merging does not change what a sum is worth. -/
theorem eval_comb (z : Variable → Fp p) (l : LinExpr p) : l.comb.eval z = l.eval z := by
  induction l with
  | zero => rfl
  | single coeff var => exact LinComb.eval_single z coeff var
  | addTerm l coeff var ih => rw [comb, eval, LinComb.eval_addTerm, ih]
  | add l m ihl ihm => rw [comb, eval, LinComb.eval_add, ihl, ihm]
  | neg l ih => rw [comb, eval, LinComb.eval_neg, ih]
  | sub l m ihl ihm => rw [comb, eval, LinComb.eval_sub, ihl, ihm]
  | scale c l ih => rw [comb, eval, LinComb.eval_scale, ih, mul_comm]

/-- Only the variables that are written down matter. -/
theorem eval_congr {z z' : Variable → Fp p} {l : LinExpr p} (h : ∀ v ∈ l.vars, z v = z' v) :
    l.eval z = l.eval z' := by
  induction l with
  | zero => rfl
  | single coeff var => rw [eval, eval, h var (List.mem_singleton_self var)]
  | addTerm l coeff var ih =>
      obtain ⟨hvar, hl⟩ := List.forall_mem_cons.mp h
      rw [eval, eval, ih hl, hvar]
  | add l m ihl ihm =>
      obtain ⟨hl, hm⟩ := List.forall_mem_append.mp h
      rw [eval, eval, ihl hl, ihm hm]
  | neg l ih => rw [eval, eval, ih h]
  | sub l m ihl ihm =>
      obtain ⟨hl, hm⟩ := List.forall_mem_append.mp h
      rw [eval, eval, ihl hl, ihm hm]
  | scale c l ih => rw [eval, eval, ih h]

end LinExpr

namespace LinComb

theorem mem_vars {l : LinComb p} {v : Variable} :
    v ∈ l.vars ↔ v ∈ l.latestFirst.map (·.var) := by
  rw [vars, terms, List.map_reverse, List.mem_reverse]

variable [Modulus p] {l m : LinComb p} {v : Variable}

/-- A term that is put into its place brings its own variable and no other. -/
theorem mem_map_insert {t : Term p} {ts : List (Term p)}
    (h : v ∈ (insert t ts).map (·.var)) : v = t.var ∨ v ∈ ts.map (·.var) := by
  induction ts with
  | nil => exact .inl (List.mem_singleton.mp h)
  | cons u rest ih =>
      rw [insert] at h
      split at h
      · exact .inr h
      · split at h
        · exact List.mem_cons.mp h
        · rcases List.mem_cons.mp h with rfl | h
          · exact .inr List.mem_cons_self
          · exact (ih h).imp_right (List.mem_cons_of_mem _)

theorem mem_vars_addTerm {c : Fp p} {w : Variable} (h : v ∈ (l.addTerm c w).vars) :
    v = w ∨ v ∈ l.vars := by
  rw [mem_vars] at h ⊢
  exact mem_map_insert h

theorem mem_map_foldr_insert {ts us : List (Term p)}
    (h : v ∈ (ts.foldr insert us).map (·.var)) :
    v ∈ us.map (·.var) ∨ v ∈ ts.map (·.var) := by
  induction ts with
  | nil => exact .inl h
  | cons t rest ih =>
      rcases mem_map_insert h with rfl | h
      · exact .inr List.mem_cons_self
      · exact (ih h).imp_right (List.mem_cons_of_mem _)

theorem mem_vars_add (h : v ∈ (l + m).vars) : v ∈ l.vars ∨ v ∈ m.vars := by
  rw [mem_vars] at h ⊢
  rw [mem_vars]
  exact mem_map_foldr_insert h

omit [Modulus p] in
/-- Other coefficients, the same variables. -/
theorem map_var_recoeff (f : Term p → Fp p) (ts : List (Term p)) :
    (ts.map fun t => (⟨t.var, f t⟩ : Term p)).reverse.map (·.var) = ts.reverse.map (·.var) := by
  rw [List.map_reverse, List.map_reverse, List.map_map]
  rfl

theorem vars_neg (l : LinComb p) : (-l).vars = l.vars := map_var_recoeff (-·.coeff) l.latestFirst

theorem vars_scale (c : Fp p) (l : LinComb p) : (l.scale c).vars = l.vars :=
  map_var_recoeff (·.coeff * c) l.latestFirst

end LinComb

/-- What is stored has terms for no variable but those that were written. -/
theorem LinExpr.vars_comb [Modulus p] (l : LinExpr p) : ∀ v ∈ l.comb.vars, v ∈ l.vars := by
  intro v h
  induction l with
  | zero => exact h
  | single coeff var => exact h
  | addTerm l coeff var ih =>
      rcases LinComb.mem_vars_addTerm h with rfl | h
      · exact List.mem_cons_self
      · exact List.mem_cons_of_mem _ (ih h)
  | add l m ihl ihm => exact List.mem_append.mpr ((LinComb.mem_vars_add h).imp ihl ihm)
  | neg l ih => exact ih (LinComb.vars_neg l.comb ▸ h)
  | sub l m ihl ihm =>
      have h : v ∈ (l.comb + -m.comb).vars := h
      refine List.mem_append.mpr ((LinComb.mem_vars_add h).imp ihl fun hm => ihm ?_)
      rwa [LinComb.vars_neg] at hm
  | scale c l ih => exact ih (LinComb.vars_scale c l.comb ▸ h)

/-! ## Requests -/

/-- A call on a system: for a private variable, a public input or a constraint,
    or to open or to close a namespace. -/
inductive Request (p : Nat) where
  | alloc (name : String) (value : Option (Fp p))
  | allocInput (name : String) (value : Option (Fp p))
  | enforce (name : String) (a b c : LinExpr p)
  | enter (name : String)
  | leave

/-- A constraint as a caller writes it, under its name: the product of `a` and `b` is `c`. -/
structure Constraint (p : Nat) where
  use : Use
  a : LinExpr p
  b : LinExpr p
  c : LinExpr p

namespace Constraint

/-- The variables that the constraint mentions. -/
def vars (c : Constraint p) : List Variable := c.a.vars ++ c.b.vars ++ c.c.vars

variable [Modulus p]

/-- The row that is stored. -/
def row (c : Constraint p) : Row p := ⟨c.use.path, c.a.comb, c.b.comb, c.c.comb⟩

/-- The constraint holds as it is written. -/
def Holds (c : Constraint p) (z : Variable → Fp p) : Prop :=
  c.a.eval z * c.b.eval z = c.c.eval z

instance (c : Constraint p) (z : Variable → Fp p) : Decidable (c.Holds z) :=
  inferInstanceAs (Decidable (_ = _))

theorem holds_congr {c : Constraint p} {z z' : Variable → Fp p} (h : ∀ v ∈ c.vars, z v = z' v) :
    c.Holds z ↔ c.Holds z' := by
  obtain ⟨hab, hc⟩ := List.forall_mem_append.mp h
  obtain ⟨ha, hb⟩ := List.forall_mem_append.mp hab
  rw [Holds, Holds, LinExpr.eval_congr ha, LinExpr.eval_congr hb, LinExpr.eval_congr hc]

theorem holds_row (c : Constraint p) (z : Variable → Fp p) : c.row.Holds z ↔ c.Holds z := by
  rw [Row.Holds, Holds, row, LinExpr.eval_comb, LinExpr.eval_comb, LinExpr.eval_comb]

end Constraint

namespace Request

/-- What the request does with names. -/
def move : Request p → Move
  | .alloc name _ => .claim name
  | .allocInput name _ => .claim name
  | .enforce name _ _ _ => .claim name
  | .enter name => .enter name
  | .leave => .leave

/-- The names that requests give, in order, where the given namespaces are open
    before them. -/
def uses (ρ : List String) (requests : List (Request p)) : List Use :=
  Move.uses ρ (requests.map move)

/-- The constraint that is asked for. -/
def constraint? (ρ : List String) : Request p → Option (Constraint p)
  | .enforce name a b c => some ⟨⟨ρ, name⟩, a, b, c⟩
  | _ => none

/-- The constraints that requests ask for, in order. -/
def constraints : List String → List (Request p) → List (Constraint p)
  | _, [] => []
  | ρ, request :: rest => (request.constraint? ρ).toList ++ constraints (request.move.opens ρ) rest

/-- The request is for a private variable. -/
def isAlloc : Request p → Bool
  | .alloc _ _ => true
  | _ => false

/-- The request is for a public input. -/
def isAllocInput : Request p → Bool
  | .allocInput _ _ => true
  | _ => false

variable [Modulus p]

/-- Makes the call; a variable that it returns is the answer. -/
def issue : Request p → Build p SynthesisError (Option Variable)
  | .alloc name value => do return some (← Build.aux name value).var
  | .allocInput name value => do return some (← Build.input name value).var
  | .enforce name a b c => do
    Build.enforce name a.comb b.comb c.comb
    return none
  | .enter name => do
    Build.enter name
    return none
  | .leave => do
    Build.leave
    return none

/-- The answer of a compiling run. -/
def answer (s : System p) : Request p → Option Variable
  | .alloc _ _ => some (.aux s.numAux)
  | .allocInput _ _ => some (.input (s.numInputs + 1))
  | _ => none

/-- The system after the call, in a compiling run. -/
def perform (s : System p) : Request p → System p
  | .alloc name _ => s.countAux.claim name
  | .allocInput name _ => s.countInput.claim name
  | .enforce name a b c => s.addRow name a.comb b.comb c.comb
  | .enter name => s.enter name
  | .leave => s.leave

/-- The answers of a compiling run to calls, in order. -/
def answers : System p → List (Request p) → List (Option Variable)
  | _, [] => []
  | s, request :: rest => request.answer s :: answers (request.perform s) rest

/-- The system after calls, in a compiling run. -/
def after (requests : List (Request p)) (s : System p) : System p :=
  requests.foldl perform s

theorem issue_compiling (request : Request p) (s : System p) :
    request.issue .compiling s = .ok (request.answer s) (request.perform s) := by
  cases request with
  | alloc name value => rfl
  | allocInput name value => rfl
  | enforce name a b c => rfl
  | enter name => rfl
  | leave => rfl

/-- In a compiling run no call fails. -/
theorem issue_all_compiling (requests : List (Request p)) (s : System p) :
    requests.mapM issue .compiling s = .ok (answers s requests) (after requests s) := by
  induction requests generalizing s with
  | nil => rfl
  | cons request rest ih =>
      rw [List.mapM_cons]
      refine Build.bind_eq_ok.mpr ⟨_, _, request.issue_compiling s, ?_⟩
      exact Build.bind_eq_ok.mpr ⟨_, _, ih (request.perform s), rfl⟩

section After

variable {requests : List (Request p)} {s : System p} {ρ : List String}

theorem numAux_after :
    (after requests s).numAux = s.numAux + requests.countP isAlloc := by
  induction requests generalizing s with
  | nil => rfl
  | cons request rest ih =>
      rw [List.countP_cons]
      refine (ih (s := request.perform s)).trans ?_
      cases request with
      | alloc name value => exact Nat.add_right_comm _ _ _
      | allocInput name value => rfl
      | enforce name a b c => rfl
      | enter name => rfl
      | leave => rfl

theorem numInputs_after :
    (after requests s).numInputs = s.numInputs + requests.countP isAllocInput := by
  induction requests generalizing s with
  | nil => rfl
  | cons request rest ih =>
      rw [List.countP_cons]
      refine (ih (s := request.perform s)).trans ?_
      cases request with
      | alloc name value => rfl
      | allocInput name value => exact Nat.add_right_comm _ _ _
      | enforce name a b c => rfl
      | enter name => rfl
      | leave => rfl

theorem naming_perform (request : Request p) (s : System p) :
    (request.perform s).naming = request.move.apply s.naming := by
  cases request with
  | alloc name value => rfl
  | allocInput name value => rfl
  | enforce name a b c => rfl
  | enter name => rfl
  | leave => rfl

theorem naming_after (requests : List (Request p)) (s : System p) :
    (after requests s).naming = s.naming.after (requests.map move) := by
  induction requests generalizing s with
  | nil => rfl
  | cons request rest ih =>
      refine (ih (request.perform s)).trans ?_
      rw [request.naming_perform]
      rfl

/-- The rows are the constraints as they were asked for, each under the path of
    its name; a name that is at fault changes nothing about that. -/
theorem rows_after (h : s.naming.Above ρ .start) : (after requests s).rows.toList
    = s.rows.toList ++ (constraints ρ requests).map Constraint.row := by
  induction requests generalizing s ρ with
  | nil => exact (List.append_nil _).symm
  | cons request rest ih =>
      have hperform : (request.perform s).rows.toList
          = s.rows.toList ++ (request.constraint? ρ).toList.map Constraint.row := by
        cases request with
        | alloc name value => exact (List.append_nil _).symm
        | allocInput name value => exact (List.append_nil _).symm
        | enforce name a b c =>
            have hpath := h.pathOf name
            show (s.rows.push ⟨s.naming.pathOf name, _, _, _⟩).toList = _
            rw [Array.toList_push, hpath]
            rfl
        | enter name => exact (List.append_nil _).symm
        | leave => exact (List.append_nil _).symm
      have habove : (request.perform s).naming.Above (request.move.opens ρ) .start := by
        rw [request.naming_perform]
        exact h.apply (.inl rfl)
      refine (ih habove).trans ?_
      rw [hperform, constraints, List.map_append, List.append_assoc]

theorem rows_after_start (requests : List (Request p)) :
    (after requests (System.start : System p)).rows.toList
      = (constraints [] requests).map Constraint.row :=
  rows_after (.refl _)

end After

end Request

end RankOne
