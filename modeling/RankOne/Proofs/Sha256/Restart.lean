import RankOne.Field.Moduli
import RankOne.Proofs.Sha256.Displacement

/-!
# Restart — a digest that was reset is a new one

    A history is what comes of a sequence of calls and resets, each in
    namespaces of its own.  It goes on after a call that fails, with whatever
    the call has left.

    A reset digest differs from a new one in the operation number alone, and
    that goes into names.  Two histories that begin with the one and with the
    other are therefore alike at every point: the calls give the same results
    or the same errors, the digests hold the same, the systems have counted and
    computed the same, and their rows are equal up to the operation numbers in
    the paths.  Nothing is asked of what the digest had been through before.
-/

namespace RankOne.Sha256

open Build Hashing

variable {p k : Nat}

/-! ## Systems whose paths are renumbered -/

/-- Paths that are made of related names, one below the other. -/
inductive PathAlike (N : String → String → Prop) : String → String → Prop where
  | one {name name' : String} (h : N name name') : PathAlike N name name'
  | under {path path' name name' : String} (h : PathAlike N path path') (h' : N name name') :
      PathAlike N (path ++ "/" ++ name) (path' ++ "/" ++ name')

/-- One constraint under two paths. -/
structure RowAlike (N : String → String → Prop) (r r' : Row p) : Prop where
  path : PathAlike N r.path r'.path
  a : r.a = r'.a
  b : r.b = r'.b
  c : r.c = r'.c

/-- Namespaces whose paths are alike. -/
def SpaceAlike (N : String → String → Prop) (s s' : Space) : Prop :=
  Option.Rel (PathAlike N) s.path s'.path

/-- Systems that have counted and computed the same, with the same rows under
    paths that are alike. -/
structure SystemAlike (N : String → String → Prop) (s s' : System p) : Prop where
  numAux : s.numAux = s'.numAux
  numInputs : s.numInputs = s'.numInputs
  aux : s.aux = s'.aux
  inputs : s.inputs = s'.inputs
  rows : List.Forall₂ (RowAlike N) s.rows.toList s'.rows.toList
  inner : SpaceAlike N s.naming.inner s'.naming.inner
  outer : List.Forall₂ (SpaceAlike N) s.naming.outer s'.naming.outer

section Stable

variable {N : String → String → Prop}

theorem SpaceAlike.pathOf {s s' : Space} (h : SpaceAlike N s s') {name name' : String}
    (hname : N name name') : PathAlike N (s.pathOf name) (s'.pathOf name') := by
  obtain ⟨path, names⟩ := s
  obtain ⟨path', names'⟩ := s'
  cases h with
  | none => exact .one hname
  | some hpath => exact .under hpath hname

variable (same : ∀ name, N name name)

include same

theorem spaceAlike_refl (s : Space) : SpaceAlike N s s := by
  obtain ⟨path, names⟩ := s
  cases path with
  | none => exact .none
  | some path => exact .some (.one (same path))

theorem systemAlike_refl (s : System p) : SystemAlike N s s where
  numAux := rfl
  numInputs := rfl
  aux := rfl
  inputs := rfl
  rows := List.forall₂_same.mpr fun row _ => ⟨.one (same row.path), rfl, rfl, rfl⟩
  inner := spaceAlike_refl same s.naming.inner
  outer := List.forall₂_same.mpr fun space _ => spaceAlike_refl same space

omit same in
theorem SystemAlike.growAux {s s' : System p} (h : SystemAlike N s s') (mode : Mode)
    (v : Option (Fp p)) : SystemAlike N (s.growAux mode v) (s'.growAux mode v) := by
  have hcount : s.numAux + 1 = s'.numAux + 1 := congrArg (· + 1) h.numAux
  unfold System.growAux
  split
  · exact ⟨hcount, h.numInputs, congrArg (Array.push · _) h.aux, h.inputs, h.rows, h.inner, h.outer⟩
  · exact ⟨hcount, h.numInputs, h.aux, h.inputs, h.rows, h.inner, h.outer⟩

/-- Whatever is done in namespaces with related names leaves systems alike. -/
theorem stable_systemAlike (mode : Mode) :
    System.Stable (p := p) N mode fun _ => SystemAlike N where
  same := same
  numAux hs := hs.numAux
  enter {ρ s s'} hs {name name'} hname := by
    unfold recording
    split
    · exact ⟨hs.numAux, hs.numInputs, hs.aux, hs.inputs, hs.rows, .some (hs.inner.pathOf hname),
        .cons hs.inner hs.outer⟩
    · exact hs
  leave {ρ s s' name} hs := by
    obtain ⟨numAux, numInputs, aux, inputs, rows, inner, outer, fault⟩ := s
    obtain ⟨numAux', numInputs', aux', inputs', rows', inner', outer', fault'⟩ := s'
    unfold recording
    split
    · cases hs.outer with
      | nil =>
          exact ⟨hs.numAux, hs.numInputs, hs.aux, hs.inputs, hs.rows, hs.inner, .nil⟩
      | cons hspace houter =>
          exact ⟨hs.numAux, hs.numInputs, hs.aux, hs.inputs, hs.rows, hspace, houter⟩
    · exact hs
  addRow {ρ s s'} hs name a b c := by
    unfold recording
    split
    · have hrow : RowAlike (p := p) N ⟨s.naming.pathOf name, a, b, c⟩
          ⟨s'.naming.pathOf name, a, b, c⟩ := ⟨hs.inner.pathOf (same name), rfl, rfl, rfl⟩
      refine ⟨hs.numAux, hs.numInputs, hs.aux, hs.inputs, ?_, hs.inner, hs.outer⟩
      show List.Forall₂ _ (s.rows.push _).toList (s'.rows.push _).toList
      rw [Array.toList_push, Array.toList_push]
      exact List.rel_append hs.rows (.cons hrow .nil)
    · exact hs
  aux {ρ s s'} hs name v _ := by
    have hgrown := hs.growAux mode v
    unfold recording
    split
    · exact ⟨hgrown.numAux, hgrown.numInputs, hgrown.aux, hgrown.inputs, hgrown.rows,
        hgrown.inner, hgrown.outer⟩
    · exact hgrown

end Stable

/-! ## Histories -/

/-- What is done with a digest. -/
inductive Event (p : Nat) where
  | call (call : Call p)
  | reset

/-- What comes of a call, if it is one, and what is left. -/
abbrev Moment (p : Nat) := EStateM.Result GadgetError (Digest × System p) (Option (Reply p))

variable [Modulus p]

/-- The circuit of an event. -/
def Event.perform : Event p → Hashing p (Option (Reply p))
  | .call c => return some (← c.perform)
  | .reset => do
    Hashing.change Digest.reset
    return none

/-- What comes of each event, the next of which goes on where it has left off. -/
def history (mode : Mode) :
    List (List String × Event p) → Digest × System p → List (Moment p)
  | [], _ => []
  | (path, event) :: rest, c =>
    let moment : Moment p := Hashing.inside path event.perform mode c
    moment :: history mode rest (stateOf moment)

theorem Event.moves_perform (event : Event p) : Moves 0 k event.perform event.perform Eq := by
  cases event with
  | call call => exact call.moves_perform.bind fun _ _ h => .pure (congrArg some h)
  | reset =>
      refine (Moves.change fun d d' hd => ?_).bind fun _ _ _ => .pure rfl
      exact ⟨rfl, rfl, rfl, rfl, hd.ops⟩

/-- Histories of displaced digests, in systems that are related. -/
theorem history_alongside {mode : Mode} {T : List String → System p → System p → Prop}
    (hT : System.Stable (Renumbered k) mode T) (events : List (List String × Event p))
    {c c' : Digest × System p} (hc : Apart 0 k (T []) c c') :
    List.Forall₂ (Alongside (Apart 0 k (T [])) Eq) (history mode events c)
      (history mode events c') := by
  induction events generalizing c c' with
  | nil => exact .nil
  | cons step rest ih =>
      obtain ⟨path, event⟩ := step
      have hstep := event.moves_perform.inside path mode T hT [] c c' hc
      exact .cons hstep (ih hstep.stateOf)

/-- A reset is a full restart.  Whatever a digest has been through, a history
    that begins with it after a reset is that of a new digest in the same
    system, in every mode: each call has the same result or the same error, and
    leaves the same hash, buffer, length and stage; the same variables have
    been allocated, with the same values; and the rows are the same, up to the
    operation numbers in their paths, which are as far apart as those of the
    digests. -/
theorem reset_restarts (mode : Mode) (d : Digest) (s : System p)
    (events : List (List String × Event p)) :
    List.Forall₂ (Alongside (Apart 0 d.ops (SystemAlike (Renumbered d.ops))) Eq)
      (history mode events (d.reset, s)) (history mode events (.new, s)) := by
  have hreset : d.reset.Displaced 0 d.ops .new :=
    ⟨rfl, rfl, rfl, rfl, (Nat.zero_add d.ops).symm⟩
  exact history_alongside (stable_systemAlike Renumbered.refl mode) events
    ⟨hreset, systemAlike_refl Renumbered.refl s⟩

set_option maxRecDepth 4000 in
/-- A digest that was left with half a padding in it by a sum that failed. -/
theorem reset_restarts_halfPadded : ∃ (d : Digest) (s : System Moduli.bn256),
    (Call.sum unknownIgnore).perform .solving (.new, .start)
        = .error (.synthesis SynthesisError.assignmentMissing.message) (d, s) ∧
      d.pending.size = 56 ∧ d.ops = 1 ∧
      let events := [(["again"], Event.call (.write [.constant 7])),
        (["sum"], .call (.sumBytes (.const 0)))]
      List.Forall₂ (Alongside (Apart 0 d.ops (SystemAlike (Renumbered d.ops))) Eq)
        (history .solving events (d.reset, s)) (history .solving events (.new, s)) :=
  ⟨_, _, rfl, rfl, rfl, reset_restarts .solving _ _ _⟩

end RankOne.Sha256
