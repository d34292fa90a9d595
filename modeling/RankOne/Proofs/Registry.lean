import Mathlib.Data.Finset.Insert
import RankOne.Proofs.Requests

/-!
# Registry — one set of paths for all that is named

    The law on names is about paths: the names of the open namespaces and the
    name itself, joined by slashes, stand in one set, to which every call adds
    its path, and a path that is in the set already is a fault.  A `Registry` is
    that set, with the names of the open namespaces and the first fault.

    A system works with less.  It keeps the names of its open namespaces only,
    compares names and not paths, and has no path for what it has closed.  The
    two reports are nevertheless the same for every sequence of calls, whatever
    the names are.  Before the first fault no name has the separator, so that
    the paths in the set are as good as the uses that they stand for; from the
    first fault on both keep it.
-/

namespace RankOne

/-- All paths that were given, with the names of the open namespaces, innermost
    first, and the first fault if there is one. -/
structure Registry where
  namespaces : List String
  paths : Finset String
  fault : Option NamingFault

namespace Registry

/-- Only the constant one has its path. -/
def start : Registry := ⟨[], {"ONE"}, none⟩

/-- The path of a name: the open namespaces and the name, joined by slashes. -/
def pathOf (r : Registry) (name : String) : String :=
  if r.namespaces.isEmpty then name
  else "/".intercalate r.namespaces.reverse ++ "/" ++ name

/-- Keeps a fault, unless there was one before. -/
def fail (fault : NamingFault) (r : Registry) : Registry :=
  { r with fault := r.fault <|> some fault }

/-- Tests a name for the separator. -/
def test (name : String) (r : Registry) : Registry :=
  if name.contains '/' then r.fail (.separator name) else r

/-- Adds a path, which must be new. -/
def add (path : String) (r : Registry) : Registry :=
  let added : Registry := { r with paths := insert path r.paths }
  if path ∈ r.paths then added.fail (.reused path) else added

/-- Gives a name: it is tested, and its path is added, at fault or not. -/
def claim (name : String) (r : Registry) : Registry := (r.test name).add (r.pathOf name)

/-- The registry after a move. -/
def apply (r : Registry) : Move → Registry
  | .claim name => r.claim name
  | .enter name => { r.claim name with namespaces := name :: r.namespaces }
  | .leave => { r with namespaces := r.namespaces.tail }

/-- The registry after moves. -/
def after (r : Registry) (moves : List Move) : Registry := moves.foldl apply r

/-! ## One name -/

section Claim

variable {r : Registry} {name : String}

theorem pathOf_eq (r : Registry) (name : String) :
    r.pathOf name = (⟨r.namespaces, name⟩ : Use).path := by
  obtain ⟨namespaces, paths, fault⟩ := r
  cases namespaces with
  | nil => rfl
  | cons inner ρ => exact (Use.path_cons name ρ inner).symm

theorem namespaces_claim (name : String) (r : Registry) :
    (r.claim name).namespaces = r.namespaces := by
  rw [claim, add, test]
  split <;> split <;> rfl

theorem paths_claim (name : String) (r : Registry) :
    (r.claim name).paths = insert (r.pathOf name) r.paths := by
  rw [claim, add, test]
  split <;> split <;> rfl

/-- The separator is looked for first. -/
theorem fault_claim (name : String) (r : Registry) : (r.claim name).fault
    = (r.fault <|> if '/' ∈ name.toList then some (.separator name)
        else if r.pathOf name ∈ r.paths then some (.reused (r.pathOf name)) else none) := by
  have hcontains : name.contains '/' = true ↔ '/' ∈ name.toList := by simp
  have hnone : (r.fault <|> none) = r.fault := by cases r.fault <;> rfl
  rw [claim, add, test]
  by_cases hslash : '/' ∈ name.toList
  · rw [if_pos (hcontains.mpr hslash), if_pos hslash]
    split
    · show ((r.fault <|> some _) <|> some _) = _
      cases r.fault <;> rfl
    · rfl
  · rw [if_neg (mt hcontains.mp hslash), if_neg hslash]
    split
    · rfl
    · exact hnone.symm

end Claim

/-! ## Agreement with a system's own naming -/

/-- The paths are those of the uses, which can be read back. -/
structure Records (r : Registry) (U : List Use) : Prop where
  paths : ∀ path, path ∈ r.paths ↔ ∃ u ∈ U, u.path = path
  clean : ∀ u ∈ U, u.Clean
  stack : ∀ name ∈ r.namespaces, '/' ∉ name.toList

namespace Records

variable {r : Registry} {U : List Use} {name : String}

theorem start : Registry.start.Records [Use.one] where
  paths path := by
    show path ∈ ({"ONE"} : Finset String) ↔ _
    rw [Finset.mem_singleton]
    constructor
    · rintro rfl
      exact ⟨Use.one, List.mem_singleton_self _, rfl⟩
    · rintro ⟨u, hu, rfl⟩
      rw [List.mem_singleton.mp hu]
      rfl
  clean := by
    refine List.forall_mem_singleton.mpr ⟨?_, List.forall_mem_nil _⟩
    decide
  stack := List.forall_mem_nil _

theorem clean_use (h : r.Records U) (hname : '/' ∉ name.toList) :
    (⟨r.namespaces, name⟩ : Use).Clean :=
  ⟨hname, h.stack⟩

/-- A path is in the set exactly when the use that it stands for was made. -/
theorem mem_paths (h : r.Records U) (hname : '/' ∉ name.toList) :
    (⟨r.namespaces, name⟩ : Use).path ∈ r.paths ↔ (⟨r.namespaces, name⟩ : Use) ∈ U := by
  rw [h.paths]
  constructor
  · rintro ⟨u, hu, hpath⟩
    obtain rfl := Use.path_inj (h.clean u hu) (h.clean_use hname) hpath
    exact hu
  · intro hmem
    exact ⟨_, hmem, rfl⟩

theorem fault_claim (h : r.Records U) (hfault : r.fault = none) (name : String) :
    (r.claim name).fault
      = (⟨r.namespaces, name⟩ : Use).faultAmong Naming.start.inner U := by
  rw [Registry.fault_claim, hfault, pathOf_eq, Use.faultAmong]
  by_cases hslash : '/' ∈ name.toList
  · rw [if_pos hslash, if_pos hslash]
    rfl
  · rw [if_neg hslash, if_neg hslash]
    simp only [h.mem_paths hslash]
    rfl

/-- The fault of a move is one against all uses that the set stands for. -/
theorem fault_apply (h : r.Records U) (hfault : r.fault = none) (move : Move) :
    (r.apply move).fault
      = (move.use? r.namespaces).bind (·.faultAmong Naming.start.inner U) := by
  cases move with
  | claim name => exact h.fault_claim hfault name
  | enter name => exact h.fault_claim hfault name
  | leave => exact hfault

theorem claim (h : r.Records U) (hname : '/' ∉ name.toList) :
    (r.claim name).Records (⟨r.namespaces, name⟩ :: U) where
  paths path := by
    rw [paths_claim, Finset.mem_insert, h.paths, List.exists_mem_cons_iff, pathOf_eq]
    exact or_congr_left eq_comm
  clean := List.forall_mem_cons.mpr ⟨h.clean_use hname, h.clean⟩
  stack := by
    rw [namespaces_claim]
    exact h.stack

theorem apply (h : r.Records U) {move : Move}
    (hclean : ∀ u ∈ move.use? r.namespaces, '/' ∉ u.name.toList) :
    (r.apply move).Records ((move.use? r.namespaces).toList ++ U) := by
  cases move with
  | claim name => exact h.claim (hclean _ rfl)
  | enter name =>
      have hname : '/' ∉ name.toList := hclean _ rfl
      have hclaim := h.claim hname
      exact ⟨hclaim.paths, hclaim.clean, List.forall_mem_cons.mpr ⟨hname, h.stack⟩⟩
  | leave => exact ⟨h.paths, h.clean, fun name hmem => h.stack name (List.mem_of_mem_tail hmem)⟩

end Records

section Moves

variable {r : Registry} {n : Naming}

theorem namespaces_apply (r : Registry) (move : Move) :
    (r.apply move).namespaces = move.opens r.namespaces := by
  cases move with
  | claim name => exact namespaces_claim name r
  | enter name => rfl
  | leave => rfl

/-- The first fault is the one that is kept. -/
theorem fault_apply_of_some {fault : NamingFault} (h : r.fault = some fault) (move : Move) :
    (r.apply move).fault = some fault := by
  have hclaim : ∀ name, (r.claim name).fault = some fault := by
    intro name
    rw [fault_claim, h]
    rfl
  cases move with
  | claim name => exact hclaim name
  | enter name => exact hclaim name
  | leave => exact h

/-- A registry and a naming after the same moves: they have the same fault, and
    as long as there is none both know the same uses. -/
structure Agrees (r : Registry) (n : Naming) : Prop where
  fault : r.fault = n.fault
  uses : n.fault = none → ∃ U, r.Records U ∧ Tracks .start U r.namespaces n

theorem Agrees.start : Registry.start.Agrees .start where
  fault := rfl
  uses _ := ⟨[Use.one], .start, .refl _⟩

/-- One move. -/
theorem Agrees.apply (h : r.Agrees n) (move : Move) : (r.apply move).Agrees (move.apply n) := by
  cases hfault : n.fault with
  | some fault =>
      have hafter : (move.apply n).fault = some fault := by
        rw [move.fault_apply, hfault]
        rfl
      have hafter' := fault_apply_of_some (h.fault.trans hfault) move
      exact ⟨hafter'.trans hafter.symm, fun hnone => nomatch hnone.symm.trans hafter⟩
  | none =>
      obtain ⟨U, hrecords, htracks⟩ := h.uses hfault
      have hafter := htracks.fault_apply hfault move
      have hafter' := hrecords.fault_apply (h.fault.trans hfault) move
      refine ⟨hafter'.trans hafter.symm, fun hnone => ?_⟩
      -- the use that the move makes, if it makes one, is no fault
      have hgood : ∀ u ∈ move.use? r.namespaces, '/' ∉ u.name.toList ∧ u ∉ U := by
        intro u hu
        rw [Option.mem_def] at hu
        rw [hafter, hu] at hnone
        exact Use.faultAmong_eq_none.mp hnone
      refine ⟨_, hrecords.apply fun u hu => (hgood u hu).1, ?_⟩
      rw [namespaces_apply]
      exact htracks.apply move (.inl rfl) fun u hu => (hgood u hu).2

/-- Any number of moves. -/
theorem Agrees.after (h : r.Agrees n) (moves : List Move) :
    (r.after moves).Agrees (n.after moves) := by
  induction moves generalizing r n with
  | nil => exact h
  | cons move rest ih => exact ih (h.apply move)

end Moves

end Registry

/-! ## Requests in a registry -/

namespace Request

variable {p : Nat}

/-- The paths that the registry gives to constraints, in order. -/
def rowPaths : Registry → List (Request p) → List String
  | _, [] => []
  | r, request :: rest =>
    ((request.constraint? r.namespaces).toList.map fun c => r.pathOf c.use.name)
      ++ rowPaths (r.apply request.move) rest

theorem rowPaths_eq (r : Registry) (requests : List (Request p)) :
    rowPaths r requests = (constraints r.namespaces requests).map fun c => c.use.path := by
  induction requests generalizing r with
  | nil => rfl
  | cons request rest ih =>
      rw [rowPaths, constraints, ih, Registry.namespaces_apply, List.map_append]
      refine congrArg (· ++ _) ?_
      cases request with
      | alloc name value => rfl
      | allocInput name value => rfl
      | enforce name a b c => exact congrArg (· :: []) (r.pathOf_eq name)
      | enter name => rfl
      | leave => rfl

variable [Modulus p]

/-- What a system reports of a sequence of calls is what the registry says.  Its
    rows are recorded under the paths that the registry gives to the
    constraints, and it has a shape exactly when the registry has no fault;
    otherwise it reports the fault of the registry. -/
theorem finish_eq_registry (requests : List (Request p)) :
    ∃ s, Build.start .compiling (requests.mapM issue) = .ok (answers .start requests) s ∧
      s.rows.toList.map Row.path = rowPaths .start requests ∧
      s.finish = match (Registry.start.after (requests.map move)).fault with
        | some fault => .error (.synthesis fault.message)
        | none => .ok s.shape := by
  refine ⟨_, issue_all_compiling requests .start, ?_, ?_⟩
  · rw [rows_after_start, rowPaths_eq, List.map_map]
    rfl
  · have hagrees := Registry.Agrees.start.after (requests.map move)
    have hnaming := naming_after requests (System.start : System p)
    rw [System.finish, hnaming, hagrees.fault]
    rfl

end Request

end RankOne
