/-!
# Naming — unique paths for variables, constraints and namespaces

    Everything that a circuit names gets a path: the names of the open
    namespaces and its own, joined by slashes.  Variables, constraints and
    namespaces share one set of names in each namespace, and in the outermost
    the constant one has its place from the start.  A name that holds a slash,
    or that its namespace has given before, is a fault; the first fault is the
    one that is kept, and it stops nothing.

    A namespace that was closed is never looked at again: to open it a second
    time takes the same name in the same place, which is a fault already.  So it
    is enough to keep the names of the namespaces that are open, and nothing is
    reported otherwise than by one set of all paths.
-/

namespace RankOne

/-- What is wrong with a name: it holds the separator, or its path has been
    given before. -/
inductive NamingFault where
  | separator (name : String)
  | reused (path : String)
deriving DecidableEq

/-- The wording of a fault. -/
def NamingFault.message : NamingFault → String
  | .separator name => s!"'/' is not allowed in names: {name}"
  | .reused path => s!"path {path} is used twice"

/-- A namespace with its path, which the outermost has none of, and the names
    given in it, latest first. -/
structure Space where
  path : Option String
  names : List String
deriving DecidableEq

namespace Space

/-- The path of a name in this namespace. -/
def pathOf (s : Space) (name : String) : String :=
  match s.path with
  | none => name
  | some path => path ++ "/" ++ name

/-- What is wrong with a name in this namespace; the separator is looked for
    first. -/
def faultOf (s : Space) (name : String) : Option NamingFault :=
  if name.contains '/' then some (.separator name)
  else if s.names.any (· == name) then some (.reused (s.pathOf name))
  else none

/-- A name is at fault when it has the separator as one of its letters, or is
    one of those given. -/
theorem faultOf_eq (s : Space) (name : String) :
    s.faultOf name = if '/' ∈ name.toList then some (.separator name)
      else if name ∈ s.names then some (.reused (s.pathOf name)) else none := by
  have given : s.names.any (· == name) = decide (name ∈ s.names) := by
    rw [Bool.eq_iff_iff, List.any_eq_true]
    simp
  rw [faultOf, given]
  simp

end Space

/-- The namespaces that are open, the innermost apart and those around it from
    the inside out, with the first fault if there is one. -/
structure Naming where
  inner : Space
  outer : List Space
  fault : Option NamingFault
deriving DecidableEq

namespace Naming

/-- No namespace but the outermost, in which the constant one is named. -/
def start : Naming := ⟨⟨none, ["ONE"]⟩, [], none⟩

/-- The path of a name in the innermost namespace. -/
def pathOf (n : Naming) (name : String) : String := n.inner.pathOf name

/-- Gives a name in the innermost namespace. -/
def claim (name : String) (n : Naming) : Naming :=
  ⟨⟨n.inner.path, name :: n.inner.names⟩, n.outer, n.fault <|> n.inner.faultOf name⟩

/-- Opens a namespace, whose name is given like any other. -/
def enter (name : String) (n : Naming) : Naming :=
  let claimed := n.claim name
  ⟨⟨some (n.pathOf name), []⟩, claimed.inner :: claimed.outer, claimed.fault⟩

/-- Closes the innermost namespace; the outermost stays open. -/
def leave (n : Naming) : Naming :=
  match n.outer with
  | [] => n
  | space :: outer => ⟨space, outer, n.fault⟩

end Naming

end RankOne
