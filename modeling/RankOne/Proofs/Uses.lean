import Mathlib.Data.List.Nodup
import Mathlib.Data.Option.Basic
import RankOne.Naming

/-!
# Uses — names in their namespaces, and which of them are at fault

    A name is given in the namespaces that are open at that moment; the two
    together are a `Use`, which has a path.  Paths are texts, and a text does not
    show what it was joined from: a name with the separator in it has the path
    of another name further down.  Where no name has the separator, a path is
    read back by cutting it at its slashes, so that different uses have
    different paths.

    The law for uses is stated without paths: no name has the separator, and
    none is used twice in the same namespaces, the name of the constant one
    included.  A list of uses that breaks the law has a first fault.
-/

namespace RankOne

/-- A name that is given, with the namespaces that are open there, innermost first. -/
structure Use where
  stack : List String
  name : String
deriving DecidableEq

/-- Joining one text more. -/
theorem intercalate_concat (sep text : String) {texts : List String} (h : texts ≠ []) :
    sep.intercalate (texts ++ [text]) = sep.intercalate texts ++ sep ++ text := by
  induction texts with
  | nil => exact absurd rfl h
  | cons first rest ih =>
      cases rest with
      | nil => exact String.intercalate_cons_cons
      | cons second rest =>
          show sep.intercalate (first :: second :: (rest ++ [text])) = _
          rw [String.intercalate_cons_cons, String.intercalate_cons_cons, ← List.cons_append,
            ih (List.cons_ne_nil _ _), String.append_assoc, String.append_assoc,
            String.append_assoc, String.append_assoc, String.append_assoc]

namespace Use

/-- The path of a name: the open namespaces from the outside in, and the name,
    joined by slashes. -/
def path (u : Use) : String := "/".intercalate (u.name :: u.stack).reverse

theorem path_cons (name : String) (ρ : List String) (inner : String) :
    (⟨inner :: ρ, name⟩ : Use).path = (⟨ρ, inner⟩ : Use).path ++ "/" ++ name := by
  rw [path, path, List.reverse_cons]
  refine intercalate_concat "/" name ?_
  rw [List.reverse_cons]
  exact List.append_ne_nil_of_right_ne_nil _ (List.cons_ne_nil _ _)

/-! ## Paths read back -/

/-- Neither the name nor those of its namespaces have the separator. -/
structure Clean (u : Use) : Prop where
  name : '/' ∉ u.name.toList
  stack : ∀ name ∈ u.stack, '/' ∉ name.toList

/-- The use that a path stands for: its last part is the name, and those before
    it are the open namespaces. -/
def ofPath (path : String) : Use :=
  match (path.toList.splitOn '/').reverse with
  | [] => ⟨[], ""⟩
  | name :: stack => ⟨stack.map String.ofList, String.ofList name⟩

/-- A path of names without the separator is read back as what it was made of. -/
theorem ofPath_path {u : Use} (h : u.Clean) : ofPath u.path = u := by
  obtain ⟨stack, name⟩ := u
  have hparts : (path ⟨stack, name⟩).toList.splitOn '/'
      = ((name :: stack).reverse).map String.toList := by
    rw [path, String.toList_intercalate]
    refine List.splitOn_intercalate '/' (fun letters hmem => ?_) (by simp)
    obtain ⟨text, htext, rfl⟩ := List.mem_map.mp hmem
    rcases List.mem_cons.mp (List.mem_reverse.mp htext) with rfl | htext
    · exact h.name
    · exact h.stack text htext
  have hlist : ∀ texts : List String, (texts.map String.toList).map String.ofList = texts := by
    intro texts
    rw [List.map_map, show String.ofList ∘ String.toList = id from
      funext fun _ => String.ofList_toList, List.map_id]
  rw [ofPath, hparts, ← List.map_reverse, List.reverse_reverse, List.map_cons]
  show (⟨(stack.map String.toList).map String.ofList, String.ofList name.toList⟩ : Use) = _
  rw [hlist, String.ofList_toList]

theorem path_inj {u v : Use} (hu : u.Clean) (hv : v.Clean) (h : u.path = v.path) : u = v := by
  rw [← ofPath_path hu, h, ofPath_path hv]

/-! ## The law, and the first fault -/

/-- The name of the constant one, which is in use from the start. -/
def one : Use := ⟨[], "ONE"⟩

/-- What is wrong with a use after those that are given; `place` is the
    namespace that they are all made in or below. -/
def faultAmong (place : Space) (given : List Use) (u : Use) : Option NamingFault :=
  if '/' ∈ u.name.toList then some (.separator u.name)
  else if u ∈ given then some (.reused (place.pathOf u.path))
  else none

/-- The first fault in a list of uses, after those that are given. -/
def firstFault? (place : Space) (given : List Use) : List Use → Option NamingFault
  | [] => none
  | u :: rest => u.faultAmong place given <|> firstFault? place (u :: given) rest

/-- Uses without fault: no name has the separator, no use is made twice, and
    none is that of the constant one. -/
structure Regular (uses : List Use) : Prop where
  separator : ∀ u ∈ uses, '/' ∉ u.name.toList
  nodup : uses.Nodup
  one : Use.one ∉ uses

/-- The fault of a use after earlier ones; the separator is looked for first. -/
inductive Offends (earlier : List Use) (u : Use) : NamingFault → Prop where
  | separator (h : '/' ∈ u.name.toList) : Offends earlier u (.separator u.name)
  | reused (hname : '/' ∉ u.name.toList) (h : u ∈ earlier ∨ u = one) :
      Offends earlier u (.reused u.path)

section Faults

variable {place : Space} {given uses : List Use} {u : Use} {fault : NamingFault}

theorem faultAmong_eq_none :
    u.faultAmong place given = none ↔ '/' ∉ u.name.toList ∧ u ∉ given := by
  rw [faultAmong]
  split
  · next h => exact ⟨nofun, fun hno => absurd h hno.1⟩
  · next h =>
      split
      · next h' => exact ⟨nofun, fun hno => absurd h' hno.2⟩
      · next h' => exact ⟨fun _ => ⟨h, h'⟩, fun _ => rfl⟩

theorem offends_of_faultAmong {earlier : List Use}
    (hgiven : ∀ v, v ∈ given ↔ v ∈ earlier ∨ v = one)
    (h : u.faultAmong Naming.start.inner given = some fault) : Offends earlier u fault := by
  rw [faultAmong] at h
  split at h
  · next hslash =>
      obtain rfl := Option.some.inj h
      exact .separator hslash
  · next hslash =>
      split at h
      · next hmem =>
          obtain rfl := Option.some.inj h
          exact .reused hslash ((hgiven u).mp hmem)
      · exact nomatch h

theorem firstFault?_eq_none : firstFault? place given uses = none ↔
    (∀ u ∈ uses, '/' ∉ u.name.toList) ∧ uses.Nodup ∧ ∀ u ∈ uses, u ∉ given := by
  induction uses generalizing given with
  | nil => exact ⟨fun _ => ⟨nofun, List.nodup_nil, nofun⟩, fun _ => rfl⟩
  | cons u rest ih =>
      rw [firstFault?, Option.orElse_eq_none, faultAmong_eq_none, ih, List.nodup_cons,
        List.forall_mem_cons, List.forall_mem_cons]
      constructor
      · rintro ⟨⟨hslash, hnot⟩, hslashes, hnodup, hfresh⟩
        have hnew : u ∉ rest := fun hmem => hfresh u hmem List.mem_cons_self
        exact ⟨⟨hslash, hslashes⟩, ⟨hnew, hnodup⟩, hnot,
          fun v hv hmem => hfresh v hv (List.mem_cons_of_mem _ hmem)⟩
      · rintro ⟨⟨hslash, hslashes⟩, ⟨hnew, hnodup⟩, hnot, hfresh⟩
        refine ⟨⟨hslash, hnot⟩, hslashes, hnodup, fun v hv hmem => ?_⟩
        rcases List.mem_cons.mp hmem with rfl | hmem
        · exact hnew hv
        · exact hfresh v hv hmem

/-- A first fault has uses without fault before it. -/
theorem exists_of_firstFault?_eq_some (h : firstFault? place given uses = some fault) :
    ∃ earlier u later, uses = earlier ++ u :: later ∧ firstFault? place given earlier = none ∧
      u.faultAmong place (earlier.reverse ++ given) = some fault := by
  induction uses generalizing given with
  | nil => exact nomatch h
  | cons u rest ih =>
      rw [firstFault?] at h
      cases hu : u.faultAmong place given with
      | some fault' =>
          rw [hu] at h
          obtain rfl : fault' = fault := Option.some.inj h
          exact ⟨[], u, rest, rfl, rfl, hu⟩
      | none =>
          rw [hu] at h
          obtain ⟨earlier, v, later, rfl, hearlier, hv⟩ := ih h
          refine ⟨u :: earlier, v, later, rfl, ?_, ?_⟩
          · rw [firstFault?, hu]
            exact hearlier
          · rw [List.reverse_cons, List.append_assoc]
            exact hv

theorem firstFault?_one : firstFault? place [one] uses = none ↔ Regular uses := by
  rw [firstFault?_eq_none]
  constructor
  · rintro ⟨hslash, hnodup, hfresh⟩
    exact ⟨hslash, hnodup, fun hmem => hfresh one hmem (List.mem_singleton_self _)⟩
  · rintro ⟨hslash, hnodup, hone⟩
    refine ⟨hslash, hnodup, fun u hu hmem => hone ?_⟩
    rwa [← List.mem_singleton.mp hmem]

end Faults

end Use

end RankOne
