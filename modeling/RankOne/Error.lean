/-!
# Errors — why building or checking a circuit fails

    Three layers, one type each: synthesis itself, an out-of-circuit hint, and
    everything that a gadget or the satisfiability check reports.  A gadget that
    passes a synthesis failure on keeps only its text.  Each type has one
    function which words it.
-/

namespace RankOne

/-- A failure of synthesis itself: a variable needs a value and has none, a
    value was divided by zero, or the constraints asked for can never be
    satisfied. -/
inductive SynthesisError where
  | assignmentMissing
  | divisionByZero
  | unsatisfiable
deriving DecidableEq

/-- The wording of a synthesis failure. -/
def SynthesisError.message : SynthesisError → String
  | .assignmentMissing => "an assignment for a variable could not be computed"
  | .divisionByZero => "division by zero"
  | .unsatisfiable => "unsatisfiable constraint system"

/-- Why an out-of-circuit hint refuses its inputs, or why its outputs are
    refused.  The hint got or gave another number of values than it promises, an
    operand is below zero, a divisor has more than 64 bits, or an output stands
    for no field element; the last two are given in decimal. -/
inductive HintError where
  | invalidArity (hint : String) (expected actual : Nat)
  | negativeOperand
  | divisorOutOfRange (divisor : String)
  | notAFieldElement (value : String)
deriving DecidableEq

/-- The wording of a hint's failure. -/
def HintError.message : HintError → String
  | .invalidArity hint expected actual =>
    s!"InvalidArity: {hint} expects {expected} inputs, got {actual}"
  | .negativeOperand => "NegativeOperand: dividend or divisor is negative"
  | .divisorOutOfRange divisor => s!"DivisorOutOfRange: divisor {divisor} is not a u64"
  | .notAFieldElement value => s!"NotAFieldElement: {value}"

/-- Why building or checking a circuit fails.  A hint or synthesis failed; a
    digest was used after its sum was taken, or its padding left bytes which do
    not fill a block; a witness has another length than the shape asks for, or
    does not satisfy it. -/
inductive GadgetError where
  | hint (cause : HintError)
  | synthesis (reason : String)
  | digestFinalized
  | paddingInvariant (pending : Nat)
  | invalidWitnessLength (expected actual : Nat)
  | unsatisfied (reason : String)
deriving DecidableEq

/-- The wording of a gadget's failure. -/
def GadgetError.message : GadgetError → String
  | .hint cause => s!"HintError: {cause.message}"
  | .synthesis reason => s!"SynthesisError: {reason}"
  | .digestFinalized => "DigestFinalized: digest must be reset before reuse"
  | .paddingInvariant pending => s!"PaddingInvariant: {pending} bytes pending after padding"
  | .invalidWitnessLength expected actual =>
    s!"InvalidWitnessLength: expected {expected}, got {actual}"
  | .unsatisfied reason => s!"UnSat: {reason}"

/-- A synthesis failure as a gadget reports it: by its text. -/
def SynthesisError.toGadgetError (e : SynthesisError) : GadgetError := .synthesis e.message

end RankOne
