import RankOne.Field.Moduli
import RankOne.Proofs.Requests

/-!
# Naming faults — which sequences of calls have none

    The names that requests give are the uses of their moves.  A system that
    begins with the constant one keeps the first fault among them, and so has a
    shape exactly when there is none.

    Where there is no fault, the path of a row can be read back: cut at its
    slashes it gives the stack of namespaces and the name of the constraint.
-/

namespace RankOne

open Use (firstFault? Regular Offends)

namespace Request

variable {p : Nat} {requests : List (Request p)} {ρ : List String}

/-- Constraints are among the things that are named. -/
theorem sublist_uses : ((constraints ρ requests).map Constraint.use).Sublist (uses ρ requests) := by
  induction requests generalizing ρ with
  | nil => exact List.Sublist.refl _
  | cons request rest ih =>
      rw [constraints, List.map_append]
      refine List.Sublist.append ?_ ih
      cases request with
      | alloc name value => exact List.nil_sublist _
      | allocInput name value => exact List.nil_sublist _
      | enforce name a b c => exact List.Sublist.refl _
      | enter name => exact List.nil_sublist _
      | leave => exact List.nil_sublist _

/-- Where no name is at fault, each constraint's path is read back. -/
theorem ofPath_constraints (h : Regular (uses [] requests)) :
    ∀ c ∈ constraints [] requests, Use.ofPath c.use.path = c.use := by
  intro c hc
  have hmem : c.use ∈ uses [] requests := sublist_uses.subset (List.mem_map_of_mem hc)
  exact Use.ofPath_path (Move.clean_uses (List.forall_mem_nil _) h.separator _ hmem)

variable [Modulus p]

/-- The fault that is kept is the first among all names that are used. -/
theorem fault_after_start (requests : List (Request p)) :
    (after requests (System.start : System p)).naming.fault
      = firstFault? Naming.start.inner [Use.one] (uses [] requests) := by
  rw [naming_after]
  exact (Tracks.refl Naming.start).fault_after (.inl rfl) rfl

/-- What a system reports of a sequence of calls.  It has a shape exactly when
    no name has the separator, no name is used twice in the same namespaces,
    and none is that of the constant one; otherwise it reports the first name
    at fault.  In a shape the paths of the rows are different, and each gives
    back the namespaces and the name of its constraint. -/
theorem finish_eq_ok_iff_regular (requests : List (Request p)) :
    ∃ s, Build.start .compiling (requests.mapM issue) = .ok (answers .start requests) s ∧
      (s.finish = .ok s.shape ↔ Regular (uses [] requests)) ∧
      (¬Regular (uses [] requests) → ∃ earlier u later fault,
        uses [] requests = earlier ++ u :: later ∧ Regular earlier ∧ Offends earlier u fault ∧
          s.finish = .error (.synthesis fault.message)) ∧
      (Regular (uses [] requests) → (s.shape.rows.toList.map Row.path).Nodup ∧
        s.shape.rows.toList.map (fun row => Use.ofPath row.path)
          = (constraints [] requests).map Constraint.use) := by
  have hfault := fault_after_start requests
  have hlaw : firstFault? Naming.start.inner [Use.one] (uses [] requests) = none
      ↔ Regular (uses [] requests) := Use.firstFault?_one
  refine ⟨_, issue_all_compiling requests .start, ?_, fun hirregular => ?_, fun hregular => ?_⟩
  · rw [← hlaw, System.finish, hfault]
    cases firstFault? Naming.start.inner [Use.one] (uses [] requests) with
    | none => exact ⟨fun _ => rfl, fun _ => rfl⟩
    | some fault => exact ⟨nofun, nofun⟩
  · rw [← hlaw] at hirregular
    obtain ⟨fault, hfirst⟩ := Option.ne_none_iff_exists'.mp hirregular
    obtain ⟨earlier, u, later, heq, hearlier, hu⟩ := Use.exists_of_firstFault?_eq_some hfirst
    refine ⟨earlier, u, later, fault, heq, Use.firstFault?_one.mp hearlier, ?_, ?_⟩
    · refine Use.offends_of_faultAmong (fun v => ?_) hu
      rw [List.mem_append, List.mem_reverse, List.mem_singleton]
    · rw [System.finish, hfault, hfirst]
  · have hback : (after requests (System.start : System p)).rows.toList.map
        (fun row => Use.ofPath row.path) = (constraints [] requests).map Constraint.use := by
      rw [rows_after_start, List.map_map]
      exact List.map_congr_left (ofPath_constraints hregular)
    refine ⟨List.Nodup.of_map Use.ofPath ?_, hback⟩
    rw [List.map_map]
    exact (congrArg List.Nodup hback).mpr (sublist_uses.nodup hregular.nodup)

/-- Calls that make three empty names, one below the other, and one more that
    is not empty. -/
def hollow : List (Request Moduli.fermat) :=
  [.enter "", .enter "", .enforce "" .zero .zero .zero, .leave, .enforce "x" .zero .zero .zero,
    .leave]

/-- The empty names are all different; only the outermost may not be given once
    more. -/
theorem finish_hollow :
    (∃ s, Build.start .compiling (hollow.mapM issue) = .ok (answers .start hollow) s ∧
      s.finish = .ok s.shape ∧ s.shape.rows.toList.map (fun row => Use.ofPath row.path)
        = [⟨["", ""], ""⟩, ⟨[""], "x"⟩]) ∧
    let again : List (Request Moduli.fermat) := hollow ++ [.alloc "" none]
    ∃ s, Build.start .compiling (again.mapM issue) = .ok (answers .start again) s ∧
      s.finish ≠ .ok s.shape := by
  have hregular : Regular (uses [] hollow) := ⟨by decide, by decide, by decide⟩
  obtain ⟨s, hrun, hfinish, -, hback⟩ := finish_eq_ok_iff_regular hollow
  refine ⟨⟨s, hrun, hfinish.mpr hregular, (hback hregular).2⟩, ?_⟩
  intro again
  have hirregular : ¬Regular (uses [] again) := fun h => absurd h.nodup (by decide)
  obtain ⟨s', hrun', hfinish', -, -⟩ := finish_eq_ok_iff_regular again
  exact ⟨s', hrun', fun hok => hirregular (hfinish'.mp hok)⟩

end Request

end RankOne
