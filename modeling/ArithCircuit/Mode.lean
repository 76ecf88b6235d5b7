/-!
The modes of a run and the operations that some of them refuse.
-/

namespace ArithCircuit

/-- What a run is doing with the circuit it executes. -/
inductive Mode where
  /-- No circuit is being executed. -/
  | idle
  /-- Constraints are recorded, without values. -/
  | constraintGeneration
  /-- Values are computed, without a record. -/
  | witnessGeneration
  /-- Values are computed and constraints recorded. -/
  | prover
deriving DecidableEq

namespace Mode

def name : Mode → String
  | idle => "Idle"
  | constraintGeneration => "ConstraintGeneration"
  | witnessGeneration => "WitnessGeneration"
  | prover => "Prover"

/-- Whether variables have values. -/
def hasWitness : Mode → Bool
  | witnessGeneration | prover => true
  | idle | constraintGeneration => false

/-- Whether constraints are recorded. -/
def records : Mode → Bool
  | constraintGeneration | prover => true
  | idle | witnessGeneration => false

end Mode

/-- An operation of a run that depends on its mode. -/
inductive Operation where
  | readValue
  | declarePublic
  | allocate
  | introduce
  | proverBlock
  | constrain
deriving DecidableEq

def Operation.name : Operation → String
  | readValue => "read_var"
  | declarePublic => "public_inputs"
  | allocate => "alloc_var"
  | introduce => "exists"
  | proverBlock => "as_prover"
  | constrain => "add_constraint"

end ArithCircuit
