import ArithCircuit.Gate.Kind
import ArithCircuit.Mode
import ArithCircuit.Residue.Numeral

/-!
What can go wrong, as causes, and the wording of each. A fault is an answer: the computation
that meets one returns it. A computation that breaks an assumption of the library stops without
an answer instead; both are a `Stop`.
-/

namespace ArithCircuit

/-- The stage of the work that a fault belongs to. -/
inductive Stage where
  | compilation
  | running
  | reading
  | naming
deriving DecidableEq

/-- Why an operation is refused. -/
inductive Fault where
  /-- A gate has more wires or coefficients than its kind holds. -/
  | gateOverflow (kind : GateKind) (wires coeffs : Nat)
  /-- A constraint system is asked for and none is being recorded. -/
  | nothingRecorded
  /-- Public inputs are declared after other variables. -/
  | publicAfterPrivate (allocated : Nat)
  /-- A wire number needs more than 32 bits. -/
  | wireOverflow (wire : Nat)
  /-- A document states a digest that its gates do not have. -/
  | digestMismatch (stated computed : String)
  /-- The mode refuses the operation. -/
  | wrongMode (operation : Operation) (mode : Mode)
  /-- A constraint does not hold; it is given as it is written, with the values it saw. -/
  | unsatisfied (label : Option String) (statement : String) (values : List String)
  /-- A variable has no value. -/
  | missingValue (index : Nat)
  /-- The number of public values differs from the number of public inputs. -/
  | publicCount (given expected : Nat)
  /-- A computation yields another number of values than there are variables or rows. -/
  | valueCount (given expected : Nat)
  /-- A text cannot be read. -/
  | malformed (reason : String)
  /-- No kind or preset has the given name. -/
  | unknownVariant (name : String)
  /-- A script mentions a name that it never set. -/
  | unknownName (name : String)
deriving DecidableEq

namespace Fault

def stage : Fault → Stage
  | gateOverflow .. | nothingRecorded | publicAfterPrivate _ | wireOverflow _
  | digestMismatch .. => .compilation
  | wrongMode .. | unsatisfied .. | missingValue _ | publicCount .. | valueCount .. => .running
  | malformed _ => .reading
  | unknownVariant _ | unknownName _ => .naming

/-- The wording of the cause alone. -/
def reason : Fault → String
  | gateOverflow kind wires coeffs =>
    s!"a {kind.name} gate supports at most {kind.maxWires} wires and {kind.maxCoeffs} " ++
      s!"coefficients, got {wires} and {coeffs}"
  | nothingRecorded => "no constraint system is being recorded"
  | publicAfterPrivate allocated =>
    s!"public inputs must be allocated before any other variable ({allocated} already allocated)"
  | wireOverflow wire => s!"the circuit uses {wire} wires, which does not fit the wire encoding"
  | digestMismatch stated computed =>
    s!"the digest in the document ({stated}) does not match its gates ({computed})"
  | wrongMode operation mode => s!"`{operation.name}` cannot be used in {mode.name} mode"
  | unsatisfied label statement values =>
    "unsatisfied constraint `" ++ label.getD "<unlabeled>" ++ "`: " ++ statement ++
      " with values [" ++ ", ".intercalate values ++ "]"
  | missingValue index => s!"variable v{index} has no witness value"
  | publicCount given expected =>
    s!"the number of public inputs passed ({given}) does not match the number of public " ++
      s!"inputs expected ({expected})"
  | valueCount given expected =>
    s!"a witness computation returned {given} values, but {expected} variables were requested"
  | malformed reason => reason
  | unknownVariant _ => "Matching variant not found"
  | unknownName name => s!"nothing is named `{name}`"

/-- The wording of a fault, which names its stage first; that of a name stands alone. -/
def message (fault : Fault) : String :=
  match fault.stage with
  | .compilation => "a compilation error occurred: " ++ fault.reason
  | .running => "a runtime error occurred: " ++ fault.reason
  | .reading => "malformed input: " ++ fault.reason
  | .naming => fault.reason

/-- A numeral that cannot be read is malformed input. -/
def ofNumeral (error : NumeralError) : Fault := .malformed error.message

end Fault

/-- Why a computation ends early. -/
inductive Stop where
  /-- It is refused, with a cause. -/
  | fault (fault : Fault)
  /-- It breaks an assumption, or its own code gives up; there is no cause to report. -/
  | abort
deriving DecidableEq

namespace GateKind

/-- Refuse more wires or coefficients than a gate of this kind holds. -/
def checkArity (kind : GateKind) (wires coeffs : Nat) : Except Fault Unit :=
  if kind.maxWires < wires ∨ kind.maxCoeffs < coeffs then
    .error (.gateOverflow kind wires coeffs)
  else .ok ()

end GateKind

end ArithCircuit
