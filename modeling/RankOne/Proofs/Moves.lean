import Mathlib.Data.List.Infix
import RankOne.Proofs.Uses

/-!
# Moves — calls that give names, and the law they are held to

    Three things can be done with the names of a system: one is given, or a
    namespace is opened under a new name, or the innermost namespace is closed.
    Whatever runs on a system does such moves, and only they matter for names.

    A system tests a name against the names on the list of its innermost
    namespace, and forgets the list when the namespace is closed.  Uses tell
    more: they are all that was ever named.  The two agree up to the first
    fault.  The invariant is that each open namespace has the names on its list
    that were used in it, and that whatever was used below a name was used
    after that name itself: a namespace that is opened without a fault has no
    name before.  After the first fault nothing is asked any more, since that
    fault is the one that is kept.

    Everything is relative to a naming `base` that the moves begin in.  They may
    close its namespaces only where it has none around the innermost one.
-/

namespace RankOne

/-! ## Namespaces above others -/

/-- The path of the innermost namespace, when those of a stack are opened in the
    given one. -/
def Space.below (space : Space) : List String → Option String
  | [] => space.path
  | name :: ρ => some (space.pathOf (⟨ρ, name⟩ : Use).path)

theorem Space.pathOf_below {space base : Space} {ρ : List String} (h : space.path = base.below ρ)
    (name : String) : space.pathOf name = base.pathOf (⟨ρ, name⟩ : Use).path := by
  cases ρ with
  | nil =>
      have hpath : space.path = base.path := h
      rw [pathOf, pathOf, hpath]
      rfl
  | cons inner ρ =>
      have hpath : space.path = some (base.pathOf (⟨ρ, inner⟩ : Use).path) := h
      rw [pathOf, hpath, Use.path_cons]
      obtain ⟨path, names⟩ := base
      cases path with
      | none => rfl
      | some path =>
          show path ++ "/" ++ _ ++ "/" ++ name = path ++ "/" ++ (_ ++ "/" ++ name)
          simp only [String.append_assoc]

theorem Space.pathOf_injective (space : Space) : Function.Injective space.pathOf := by
  intro name name' h
  obtain ⟨path, names⟩ := space
  cases path with
  | none => exact h
  | some path => exact (String.append_right_inj (path ++ "/")).mp h

/-- The open namespaces are those of `base` and above them those of a stack. -/
def Naming.Above (n : Naming) (ρ : List String) (base : Naming) : Prop :=
  (n.inner :: n.outer).map Space.path = ρ.tails.map base.inner.below ++ base.outer.map Space.path

namespace Naming.Above

variable {n base : Naming} {ρ : List String}

theorem refl (n : Naming) : n.Above [] n := rfl

theorem inner (h : n.Above ρ base) : n.inner.path = base.inner.below ρ := by
  cases ρ with
  | nil => exact (List.cons.inj h).1
  | cons top ρ => exact (List.cons.inj h).1

theorem pathOf (h : n.Above ρ base) (name : String) :
    n.pathOf name = base.inner.pathOf (⟨ρ, name⟩ : Use).path :=
  Space.pathOf_below h.inner name

theorem claim (h : n.Above ρ base) (name : String) : (n.claim name).Above ρ base := h

theorem enter (h : n.Above ρ base) (name : String) : (n.enter name).Above (name :: ρ) base := by
  have hpaths : (n.inner :: n.outer).map Space.path
      = ρ.tails.map base.inner.below ++ base.outer.map Space.path := h
  show some (n.pathOf name) :: (n.inner :: n.outer).map Space.path = _
  rw [h.pathOf, hpaths, List.tails_cons]
  rfl

/-- Where nothing is opened and nothing is around, there is nothing to close. -/
theorem leave (h : n.Above ρ base) (hclose : base.outer = [] ∨ ρ ≠ []) :
    n.leave.Above ρ.tail base := by
  obtain ⟨inner, outer, fault⟩ := n
  cases ρ with
  | nil =>
      have hbase : base.outer = [] := hclose.resolve_right fun hne => hne rfl
      have houter : outer.map Space.path = base.outer.map Space.path := (List.cons.inj h).2
      rw [hbase] at houter
      obtain rfl : outer = [] := List.map_eq_nil_iff.mp houter
      exact h
  | cons top ρ =>
      have houter : outer.map Space.path
          = ρ.tails.map base.inner.below ++ base.outer.map Space.path := by
        have hmap := h
        rw [Naming.Above, List.tails_cons, List.map_cons, List.map_cons, List.cons_append] at hmap
        exact (List.cons.inj hmap).2
      cases outer with
      | nil => cases ρ <;> exact nomatch houter
      | cons space outer => exact houter

end Naming.Above

/-! ## Moves -/

/-- What is done with names: one is given, a namespace is opened under a new
    one, or the innermost namespace is closed. -/
inductive Move where
  | claim (name : String)
  | enter (name : String)
  | leave

namespace Move

/-- The name that is given. -/
def name? : Move → Option String
  | .claim name => some name
  | .enter name => some name
  | .leave => none

/-- The namespaces that are open afterwards, innermost first. -/
def opens (ρ : List String) : Move → List String
  | .claim _ => ρ
  | .enter name => name :: ρ
  | .leave => ρ.tail

/-- The use that is made where the given namespaces are open. -/
def use? (ρ : List String) (move : Move) : Option Use := move.name?.map (Use.mk ρ)

/-- The uses of moves, in order, where the given namespaces are open before
    them. -/
def uses : List String → List Move → List Use
  | _, [] => []
  | ρ, move :: rest => (move.use? ρ).toList ++ uses (move.opens ρ) rest

/-- Moves that close only what is in the stack, or was opened by them. -/
def Inside : List String → List Move → Prop
  | _, [] => True
  | ρ, move :: rest => (move = .leave → ρ ≠ []) ∧ Inside (move.opens ρ) rest

/-- The naming after the move. -/
def apply (n : Naming) : Move → Naming
  | .claim name => n.claim name
  | .enter name => n.enter name
  | .leave => n.leave

end Move

/-- The naming after moves. -/
def Naming.after (n : Naming) (moves : List Move) : Naming := moves.foldl Move.apply n

section Uses

variable {moves : List Move} {ρ : List String}

/-- Where no name has the separator, no namespace has it either. -/
theorem Move.clean_uses (hstack : ∀ name ∈ ρ, '/' ∉ name.toList)
    (h : ∀ u ∈ uses ρ moves, '/' ∉ u.name.toList) : ∀ u ∈ uses ρ moves, u.Clean := by
  induction moves generalizing ρ with
  | nil => exact nofun
  | cons move rest ih =>
      obtain ⟨hmove, hrest⟩ := List.forall_mem_append.mp h
      have hopens : ∀ name ∈ move.opens ρ, '/' ∉ name.toList := by
        cases move with
        | claim name => exact hstack
        | enter name => exact List.forall_mem_cons.mpr ⟨hmove _ (List.mem_singleton_self _), hstack⟩
        | leave => exact fun name hmem => hstack name (List.mem_of_mem_tail hmem)
      refine List.forall_mem_append.mpr ⟨fun u hu => ⟨hmove u hu, ?_⟩, ih hopens hrest⟩
      obtain ⟨name, -, rfl⟩ := Option.map_eq_some_iff.mp (Option.mem_toList.mp hu)
      exact hstack

/-- Every name that is given is that of a use. -/
theorem Move.exists_use {move : Move} (hmove : move ∈ moves) {name : String}
    (hname : name ∈ move.name?) : ∃ u ∈ uses ρ moves, u.name = name := by
  induction moves generalizing ρ with
  | nil => exact nomatch hmove
  | cons first rest ih =>
      rcases List.mem_cons.mp hmove with rfl | hmove
      · refine ⟨⟨ρ, name⟩, List.mem_append_left _ (Option.mem_toList.mpr ?_), rfl⟩
        exact Option.mem_map_of_mem (Use.mk ρ) hname
      · obtain ⟨u, hu, hname⟩ : ∃ u ∈ uses (first.opens ρ) rest, u.name = name := ih hmove
        exact ⟨u, List.mem_append_right _ hu, hname⟩

/-- Uses without fault have different paths. -/
theorem Move.nodup_paths (hstack : ∀ name ∈ ρ, '/' ∉ name.toList)
    (hslash : ∀ u ∈ uses ρ moves, '/' ∉ u.name.toList) (hnodup : (uses ρ moves).Nodup)
    (place : Space) : ((uses ρ moves).map fun u => place.pathOf u.path).Nodup := by
  have hclean := clean_uses hstack hslash
  refine hnodup.map_on fun u hu v hv heq => ?_
  exact Use.path_inj (hclean u hu) (hclean v hv) (place.pathOf_injective heq)

end Uses

section Step

variable {base n : Naming} {ρ : List String} {move : Move}

theorem Naming.Above.apply (h : n.Above ρ base)
    (hclose : base.outer = [] ∨ (move = .leave → ρ ≠ [])) :
    (move.apply n).Above (move.opens ρ) base := by
  cases move with
  | claim name => exact h.claim name
  | enter name => exact h.enter name
  | leave => exact h.leave (hclose.imp_right fun hne => hne rfl)

/-- The fault of a move, unless there was one before. -/
theorem Move.fault_apply (move : Move) (n : Naming) :
    (move.apply n).fault = (n.fault <|> move.name?.bind n.inner.faultOf) := by
  cases move with
  | claim name => rfl
  | enter name => rfl
  | leave =>
      have hnone : (n.fault <|> none) = n.fault := by cases n.fault <;> rfl
      show n.leave.fault = (n.fault <|> none)
      rw [hnone, Naming.leave]
      split
      · rfl
      · rfl

/-- The first fault is the one that is kept. -/
theorem Naming.fault_after_of_some {moves : List Move} {fault : NamingFault}
    (h : n.fault = some fault) : (n.after moves).fault = some fault := by
  induction moves generalizing n with
  | nil => exact h
  | cons move rest ih =>
      refine ih (n := move.apply n) ?_
      rw [move.fault_apply, h]
      rfl

end Step

/-! ## What a system keeps of the uses -/

/-- The open namespaces have on their lists the names that were used in them,
    and each was opened under a name that was used. -/
inductive Kept (U : List Use) : List String → Space → List Space → Prop where
  | outermost {space : Space} {outer : List Space}
      (hnames : ∀ x, x ∈ space.names ↔ (⟨[], x⟩ : Use) ∈ U) : Kept U [] space outer
  | nested {ρ : List String} {name : String} {inner space : Space} {outer : List Space}
      (h : Kept U ρ space outer) (hopened : (⟨ρ, name⟩ : Use) ∈ U)
      (hnames : ∀ x, x ∈ inner.names ↔ (⟨name :: ρ, x⟩ : Use) ∈ U) :
      Kept U (name :: ρ) inner (space :: outer)

namespace Kept

variable {U : List Use} {ρ : List String} {space : Space} {outer : List Space}

theorem names (h : Kept U ρ space outer) (x : String) :
    x ∈ space.names ↔ (⟨ρ, x⟩ : Use) ∈ U := by
  cases h with
  | outermost hnames => exact hnames x
  | nested _ _ hnames => exact hnames x

theorem opened {name : String} (h : Kept U (name :: ρ) space outer) :
    (⟨ρ, name⟩ : Use) ∈ U := by
  cases h with
  | nested _ hopened _ => exact hopened

/-- Namespaces around the one that a name is used in do not notice. -/
theorem extend (h : Kept U ρ space outer) {u : Use} (hlt : ρ.length < u.stack.length) :
    Kept (u :: U) ρ space outer := by
  have hsame : ∀ (stack : List String) (x : String), stack.length < u.stack.length →
      ((⟨stack, x⟩ : Use) ∈ u :: U ↔ (⟨stack, x⟩ : Use) ∈ U) := by
    intro stack x hstack
    rw [List.mem_cons, or_iff_right]
    rintro rfl
    exact absurd hstack (Nat.lt_irrefl _)
  induction h with
  | outermost hnames => exact .outermost fun x => (hnames x).trans (hsame [] x hlt).symm
  | @nested ρ name inner space outer h hopened hnames ih =>
      refine .nested (ih (Nat.lt_of_succ_lt hlt)) (List.mem_cons_of_mem _ hopened) ?_
      exact fun x => (hnames x).trans (hsame _ x hlt).symm

/-- The innermost namespace gets the name on its list. -/
theorem claim (h : Kept U ρ space outer) (name : String) :
    Kept (⟨ρ, name⟩ :: U) ρ ⟨space.path, name :: space.names⟩ outer := by
  have hnames : ∀ x, x ∈ name :: space.names ↔ (⟨ρ, x⟩ : Use) ∈ (⟨ρ, name⟩ : Use) :: U := by
    intro x
    rw [List.mem_cons, List.mem_cons, h.names x, Use.mk.injEq]
    exact or_congr_left (and_iff_right rfl).symm
  cases h with
  | outermost _ => exact .outermost hnames
  | nested hkept hopened _ =>
      exact .nested (hkept.extend (Nat.lt_succ_self _)) (List.mem_cons_of_mem _ hopened) hnames

end Kept

/-- The naming after uses that were no fault, which were made in the innermost
    namespace of `base` or below it. -/
structure Tracks (base : Naming) (U : List Use) (ρ : List String) (n : Naming) : Prop where
  place : n.Above ρ base
  kept : Kept U ρ n.inner n.outer
  below : ∀ u ∈ U, ∀ name stack, u.stack = name :: stack → (⟨stack, name⟩ : Use) ∈ U

namespace Tracks

variable {base n : Naming} {U : List Use} {ρ : List String} {name : String}

/-- What was named before counts as used. -/
theorem refl (n : Naming) : Tracks n (n.inner.names.map (Use.mk [])) [] n where
  place := .refl n
  kept := by
    refine .outermost fun x => ⟨List.mem_map_of_mem, fun hmem => ?_⟩
    obtain ⟨y, hy, heq⟩ := List.mem_map.mp hmem
    obtain ⟨-, rfl⟩ := Use.mk.inj heq
    exact hy
  below := by
    intro u hu name stack hstack
    obtain ⟨y, -, rfl⟩ := List.mem_map.mp hu
    exact nomatch hstack

/-- The list of the innermost namespace is as good as all that was used. -/
theorem faultOf (h : Tracks base U ρ n) (name : String) :
    n.inner.faultOf name = (⟨ρ, name⟩ : Use).faultAmong base.inner U := by
  rw [Space.faultOf_eq, Use.faultAmong, Space.pathOf_below h.place.inner]
  simp only [h.kept.names name]

theorem below_claim (h : Tracks base U ρ n) (name : String) :
    ∀ u ∈ (⟨ρ, name⟩ : Use) :: U, ∀ top stack, u.stack = top :: stack →
      (⟨stack, top⟩ : Use) ∈ (⟨ρ, name⟩ : Use) :: U := by
  intro u hu top stack hstack
  refine List.mem_cons_of_mem _ ?_
  rcases List.mem_cons.mp hu with rfl | hu
  · obtain rfl : ρ = top :: stack := hstack
    exact h.kept.opened
  · exact h.below u hu top stack hstack

theorem claim (h : Tracks base U ρ n) (name : String) :
    Tracks base (⟨ρ, name⟩ :: U) ρ (n.claim name) :=
  ⟨h.place.claim name, h.kept.claim name, h.below_claim name⟩

/-- Nothing was used in a namespace before its name was. -/
theorem enter (h : Tracks base U ρ n) (hfresh : (⟨ρ, name⟩ : Use) ∉ U) :
    Tracks base (⟨ρ, name⟩ :: U) (name :: ρ) (n.enter name) where
  place := h.place.enter name
  kept := by
    refine .nested (h.kept.claim name) List.mem_cons_self fun x => ⟨nofun, fun hmem => ?_⟩
    rcases List.mem_cons.mp hmem with heq | hmem
    · have hstack : name :: ρ = ρ := congrArg Use.stack heq
      exact absurd hstack (List.cons_ne_self name ρ)
    · exact absurd (h.below _ hmem name ρ rfl) hfresh
  below := h.below_claim name

theorem leave (h : Tracks base U ρ n) (hclose : base.outer = [] ∨ ρ ≠ []) :
    Tracks base U ρ.tail n.leave := by
  refine ⟨h.place.leave hclose, ?_, h.below⟩
  have hplace := h.place
  have hkept := h.kept
  obtain ⟨inner, outer, fault⟩ := n
  cases hkept with
  | nested hkept _ _ => exact hkept
  | outermost hnames =>
      cases outer with
      | nil => exact .outermost hnames
      | cons space outer =>
          -- there is a namespace around, though `base` has none
          have hbase : base.outer = [] := hclose.resolve_right fun hne => hne rfl
          have houter : (space :: outer).map Space.path = base.outer.map Space.path :=
            (List.cons.inj hplace).2
          rw [hbase] at houter
          exact nomatch houter

/-- A move is tested against all that was used. -/
theorem fault_apply (h : Tracks base U ρ n) (hfault : n.fault = none) (move : Move) :
    (move.apply n).fault = (move.use? ρ).bind (·.faultAmong base.inner U) := by
  rw [move.fault_apply, hfault, Move.use?]
  cases move.name? with
  | none => rfl
  | some name => exact h.faultOf name

theorem apply (h : Tracks base U ρ n) (move : Move)
    (hclose : base.outer = [] ∨ (move = .leave → ρ ≠ [])) (hfresh : ∀ u ∈ move.use? ρ, u ∉ U) :
    Tracks base ((move.use? ρ).toList ++ U) (move.opens ρ) (move.apply n) := by
  cases move with
  | claim name => exact h.claim name
  | enter name => exact h.enter (hfresh _ rfl)
  | leave => exact h.leave (hclose.imp_right fun hne => hne rfl)

/-- The fault that is kept is the first among all uses. -/
theorem fault_after {moves : List Move} (h : Tracks base U ρ n)
    (hclose : base.outer = [] ∨ Move.Inside ρ moves) (hfault : n.fault = none) :
    (n.after moves).fault = Use.firstFault? base.inner U (Move.uses ρ moves) := by
  induction moves generalizing n U ρ with
  | nil => exact hfault
  | cons move rest ih =>
      have hfirst := h.fault_apply hfault move
      have htracks := h.apply move (hclose.imp_right And.left)
      have hrest := hclose.imp_right And.right
      show ((move.apply n).after rest).fault = _
      rw [Move.uses]
      cases huse : move.use? ρ with
      | none =>
          rw [huse] at hfirst htracks
          exact ih (htracks nofun) hrest hfirst
      | some u =>
          rw [huse] at hfirst htracks
          change _ = u.faultAmong base.inner U at hfirst
          show _ = (u.faultAmong base.inner U <|>
            Use.firstFault? base.inner (u :: U) (Move.uses (move.opens ρ) rest))
          cases hu : u.faultAmong base.inner U with
          | some fault => exact Naming.fault_after_of_some (hfirst.trans hu)
          | none =>
              refine ih (htracks fun v hv => ?_) hrest (hfirst.trans hu)
              obtain rfl := Option.some.inj hv
              exact (Use.faultAmong_eq_none.mp hu).2

end Tracks

end RankOne
