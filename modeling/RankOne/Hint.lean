import RankOne.Num

/-!
# Hints — values that a prover supplies

    A hint computes integers outside the circuit, without a proof of how they
    were found.  `Hint.solve` allocates them as free variables: whoever uses a
    hint has to constrain its outputs.  Every output is checked before the first
    is allocated, so that a hint which fails allocates nothing.
-/

namespace RankOne

variable {p : Nat} [Modulus p]

/-- A function on integers that is evaluated outside the circuit, with a name
    for errors and paths and the number of values that it promises. -/
structure Hint where
  name : String
  numOutputs : Nat
  compute : List Int → Except HintError (List Int)

namespace Hint

/-- The field elements that the hint's outputs on known inputs stand for. -/
def outputs (h : Hint) (inputs : List (Fp p)) : Except HintError (List (Fp p)) := do
  let values ← h.compute (inputs.map fun v => (v.val : Int))
  if values.length ≠ h.numOutputs then
    throw (.invalidArity h.name h.numOutputs values.length)
  values.mapM fun z =>
    match Fp.ofInt? z with
    | some v => .ok v
    | none => .error (.notAFieldElement (toString z))

/-- The values of the outputs: computed when every input is known, and unknown
    otherwise. -/
def outputValues (h : Hint) (inputs : List (Num p)) : Except HintError (List (Option (Fp p))) :=
  match inputs.mapM (·.value) with
  | some values => (h.outputs values).map (·.map some)
  | none => .ok (List.replicate h.numOutputs none)

/-- Allocates the outputs of a hint, and constrains none of them. -/
def solve (h : Hint) (inputs : List (Num p)) : Build p GadgetError (List (Num p)) := do
  match h.outputValues inputs with
  | .error e => throw (.hint e)
  | .ok values =>
    let name := h.name
    values.zipIdx.mapM fun (v, i) => Build.within s!"{name} output {i}" <| Num.alloc v

end Hint

end RankOne
