import Mathlib.Data.List.Induction
import RankOne.Proofs.Moves
import RankOne.Proofs.Renaming

/-!
# Paths — what a run of claims gives names to

    A compiling run changes a system by a sequence of acts: it counts a
    variable, records a row, opens or closes a namespace.  All but the last
    claim a path, which is the text that stands for the open namespaces and the
    name.  The paths that a sequence of acts claims can be listed (`claimed`),
    whether or not the system objects to them.

    As far as names go, acts are moves, and what they claim are the paths of the
    uses of these moves.  So where no fault is found in a sequence of acts, all
    paths that were claimed are different, those in namespaces that were closed
    again included.
-/

namespace RankOne

variable {p : Nat}

/-! ## Acts -/

/-- What a compiling run does to a system: it counts a private variable, records
    a constraint, or opens or closes a namespace. -/
inductive Act (p : Nat) where
  | aux (name : String)
  | row (name : String) (a b c : LinComb p)
  | enter (name : String)
  | leave

namespace Act

/-- The system after the act. -/
def perform : Act p → System p → System p
  | .aux name, s => s.countAux.claim name
  | .row name a b c, s => s.addRow name a b c
  | .enter name, s => s.enter name
  | .leave, s => s.leave

/-- What the act does with names. -/
def move : Act p → Move
  | .aux name => .claim name
  | .row name _ _ _ => .claim name
  | .enter name => .enter name
  | .leave => .leave

/-- The name that the act gives. -/
def name? (act : Act p) : Option String := act.move.name?

/-- The namespaces that are open after the act, innermost first, when those
    before it are known; only what was opened can be closed. -/
def opens : List String → Act p → Option (List String)
  | ρ, .aux _ => some ρ
  | ρ, .row _ _ _ _ => some ρ
  | ρ, .enter name => some (name :: ρ)
  | _ :: ρ, .leave => some ρ
  | [], .leave => none

end Act

/-- The system after acts. -/
def performAll (acts : List (Act p)) (s : System p) : System p :=
  acts.foldl (fun s act => act.perform s) s

/-- The namespaces that acts have opened and not closed. -/
def opened (acts : List (Act p)) : Option (List String) := acts.foldlM Act.opens []

/-- The paths that acts claim, in order. -/
def claimed : List (Act p) → System p → List String
  | [], _ => []
  | act :: rest, s => (act.name?.map s.naming.pathOf).toList ++ claimed rest (act.perform s)

section Acts

variable {acts : List (Act p)} {act : Act p} {s s' : System p} {ρ : List String}

theorem performAll_concat : performAll (acts ++ [act]) s = act.perform (performAll acts s) :=
  List.foldl_append

theorem opened_concat (h : opened acts = some ρ) : opened (acts ++ [act]) = act.opens ρ := by
  have h' : acts.foldlM Act.opens [] = some ρ := h
  rw [opened, List.foldlM_append, h']
  show (act.opens ρ).bind some = _
  exact Option.bind_fun_some _

theorem claimed_concat : claimed (acts ++ [act]) s
    = claimed acts s ++ (act.name?.map (performAll acts s).naming.pathOf).toList := by
  induction acts generalizing s with
  | nil => exact List.append_nil _
  | cons first rest ih =>
      show _ ++ claimed (rest ++ [act]) (first.perform s) = _
      rw [ih, ← List.append_assoc]
      rfl

/-- Counts and rows do not depend on names. -/
theorem numAux_performAll (h : s.numAux = s'.numAux) :
    (performAll acts s).numAux = (performAll acts s').numAux := by
  induction acts generalizing s s' with
  | nil => exact h
  | cons act rest ih =>
      refine ih ?_
      cases act with
      | aux name => exact congrArg (· + 1) h
      | row name a b c => exact h
      | enter name => exact h
      | leave => exact h

/-- The rows that acts record are recorded under paths that they claim. -/
theorem rows_performAll (acts : List (Act p)) (s : System p) :
    ∃ new, (performAll acts s).rows.toList = s.rows.toList ++ new ∧
    (new.map Row.path).Sublist (claimed acts s) := by
  induction acts using List.reverseRecOn with
  | nil => exact ⟨[], (List.append_nil _).symm, List.Sublist.refl _⟩
  | append_singleton acts act ih =>
      obtain ⟨new, hrows, hpaths⟩ := ih
      rw [performAll_concat, claimed_concat]
      cases act with
      | aux name => exact ⟨new, hrows, hpaths.trans (List.sublist_append_left _ _)⟩
      | enter name => exact ⟨new, hrows, hpaths.trans (List.sublist_append_left _ _)⟩
      | leave => exact ⟨new, hrows, hpaths.trans (List.sublist_append_left _ _)⟩
      | row name a b c =>
          refine ⟨new ++ [⟨(performAll acts s).naming.pathOf name, a, b, c⟩], ?_, ?_⟩
          · show ((performAll acts s).rows.push _).toList = _
            rw [Array.toList_push, hrows, List.append_assoc]
          · rw [List.map_append]
            exact hpaths.append (List.Sublist.refl _)

end Acts

/-! ## Claimed paths are different -/

section Claimed

variable {acts : List (Act p)} {s s' : System p} {ρ ρ' : List String}

theorem Act.naming_perform (act : Act p) (s : System p) :
    (act.perform s).naming = act.move.apply s.naming := by
  cases act with
  | aux name => rfl
  | row name a b c => rfl
  | enter name => rfl
  | leave => rfl

theorem naming_performAll (acts : List (Act p)) (s : System p) :
    (performAll acts s).naming = s.naming.after (acts.map Act.move) := by
  induction acts generalizing s with
  | nil => rfl
  | cons act rest ih =>
      refine (ih (act.perform s)).trans ?_
      rw [act.naming_perform]
      rfl

/-- Acts open what their moves open, and close nothing else. -/
theorem Act.of_opens {act : Act p} (h : act.opens ρ = some ρ') :
    act.move.opens ρ = ρ' ∧ (act.move = .leave → ρ ≠ []) := by
  cases act with
  | aux name => exact ⟨Option.some.inj h, nofun⟩
  | row name a b c => exact ⟨Option.some.inj h, nofun⟩
  | enter name => exact ⟨Option.some.inj h, nofun⟩
  | leave =>
      cases ρ with
      | nil => exact nomatch h
      | cons name ρ => exact ⟨Option.some.inj h, fun _ => List.cons_ne_nil _ _⟩

/-- What acts claim are the paths of uses, in a place that is left open. -/
theorem of_opened {base : Naming} (hopened : acts.foldlM Act.opens ρ = some ρ')
    (h : s.naming.Above ρ base) : Move.Inside ρ (acts.map Act.move) ∧ claimed acts s
      = (Move.uses ρ (acts.map Act.move)).map fun u => base.inner.pathOf u.path := by
  induction acts generalizing s ρ with
  | nil => exact ⟨trivial, rfl⟩
  | cons act rest ih =>
      obtain ⟨ρ₁, hact, hrest⟩ := Option.bind_eq_some_iff.mp hopened
      obtain ⟨rfl, hclose⟩ := Act.of_opens hact
      have hnext : (act.perform s).naming.Above (act.move.opens ρ) base := by
        rw [act.naming_perform]
        exact h.apply (.inr hclose)
      obtain ⟨hinside, hclaimed⟩ := ih hrest hnext
      refine ⟨⟨hclose, hinside⟩, ?_⟩
      rw [claimed, hclaimed, List.map_cons, Move.uses, List.map_append, Move.use?, Act.name?]
      cases act.move.name? with
      | none => rfl
      | some name => exact congrArg (· :: _) (h.pathOf name)

/-- What is claimed depends on nothing but the place that it is claimed in. -/
theorem claimed_congr (hopened : opened acts = some ρ)
    (hpath : s.naming.inner.path = s'.naming.inner.path) : claimed acts s = claimed acts s' := by
  have hpathOf : s.naming.inner.pathOf = s'.naming.inner.pathOf := by
    funext name
    rw [Space.pathOf, Space.pathOf, hpath]
  rw [(of_opened hopened (.refl s.naming)).2, (of_opened hopened (.refl s'.naming)).2, hpathOf]

/-- Acts that find no fault have claimed different paths, under names without
    the separator. -/
theorem nodup_claimed (hopened : opened acts = some ρ)
    (hfault : (performAll acts s).naming.fault = none) :
    (claimed acts s).Nodup ∧ ∀ act ∈ acts, ∀ name ∈ act.name?, '/' ∉ name.toList := by
  rw [naming_performAll] at hfault
  have hbefore : s.naming.fault = none := by
    cases hs : s.naming.fault with
    | none => rfl
    | some fault => exact nomatch hfault.symm.trans (Naming.fault_after_of_some hs)
  obtain ⟨hinside, hclaimed⟩ := of_opened hopened (.refl s.naming)
  rw [(Tracks.refl s.naming).fault_after (.inr hinside) hbefore] at hfault
  obtain ⟨hslash, hnodup, -⟩ := Use.firstFault?_eq_none.mp hfault
  refine ⟨?_, fun act hact name hname => ?_⟩
  · rw [hclaimed]
    exact Move.nodup_paths (List.forall_mem_nil _) hslash hnodup s.naming.inner
  · obtain ⟨u, hu, rfl⟩ := Move.exists_use (List.mem_map_of_mem hact) hname
    exact hslash u hu

end Claimed

/-! ## The acts of a run -/

/-- Two systems to which the same acts have led. -/
def Logged (s s' : System p) (ρ : List String) (t t' : System p) : Prop :=
  ∃ acts : List (Act p), opened acts = some ρ ∧ t = performAll acts s ∧ t' = performAll acts s'

theorem Logged.start (s s' : System p) : Logged s s' [] s s' := ⟨[], rfl, rfl, rfl⟩

theorem Logged.concat {s s' t t' : System p} {ρ ρ' : List String} (h : Logged s s' ρ t t')
    (act : Act p) (hopens : act.opens ρ = some ρ') :
    Logged s s' ρ' (act.perform t) (act.perform t') := by
  obtain ⟨acts, hopened, rfl, rfl⟩ := h
  refine ⟨acts ++ [act], (opened_concat hopened).trans hopens, ?_, ?_⟩
  · rw [performAll_concat]
  · rw [performAll_concat]

/-- A compiling run is a sequence of acts, which is the same in all systems
    that have counted the same variables. -/
theorem stable_logged {N : String → String → Prop} (same : ∀ name, N name name)
    (hN : ∀ name name', N name name' → name = name') {s s' : System p}
    (hcount : s.numAux = s'.numAux) : System.Stable N .compiling (Logged s s') where
  same := same
  numAux := by
    rintro ρ t t' ⟨acts, -, rfl, rfl⟩
    exact numAux_performAll hcount
  enter h name name' hname := by
    obtain rfl := hN name name' hname
    exact h.concat (.enter name) rfl
  leave h := h.concat .leave rfl
  addRow h name a b c := h.concat (.row name a b c) rfl
  aux h name v _ := by
    rw [System.growAux_of_not rfl, System.growAux_of_not rfl]
    exact h.concat (.aux name) rfl

end RankOne
