/-!
The vocabulary of gate kinds, their names, and how many wires and coefficients a gate of each
kind can hold.
-/

namespace ArithCircuit

/-- The number of registers of a row. -/
def rowWidth : Nat := 15

/-- What a row of a circuit computes. -/
inductive GateKind where
  | zero
  | generic
  | poseidon
  | completeAdd
  | varBaseMul
  | endoMul
  | endoMulScalar
  | lookup
  | rangeCheck0
  | rangeCheck1
  | foreignFieldAdd
  | foreignFieldMul
  | xor16
  | rot64
deriving DecidableEq

namespace GateKind

/-- All kinds, in the order of their codes. -/
def all : List GateKind :=
  [zero, generic, poseidon, completeAdd, varBaseMul, endoMul, endoMulScalar, lookup,
    rangeCheck0, rangeCheck1, foreignFieldAdd, foreignFieldMul, xor16, rot64]

def name : GateKind → String
  | zero => "Zero"
  | generic => "Generic"
  | poseidon => "Poseidon"
  | completeAdd => "CompleteAdd"
  | varBaseMul => "VarBaseMul"
  | endoMul => "EndoMul"
  | endoMulScalar => "EndoMulScalar"
  | lookup => "Lookup"
  | rangeCheck0 => "RangeCheck0"
  | rangeCheck1 => "RangeCheck1"
  | foreignFieldAdd => "ForeignFieldAdd"
  | foreignFieldMul => "ForeignFieldMul"
  | xor16 => "Xor16"
  | rot64 => "Rot64"

/-- The kind with a given name; names are compared with their case. -/
def ofName? (text : String) : Option GateKind :=
  all.find? fun kind => kind.name == text

theorem ofName?_name (kind : GateKind) : ofName? kind.name = some kind := by
  cases kind <;> rfl

/-- The number of a kind. -/
def code (kind : GateKind) : Nat := all.idxOf kind

/-- The largest number of wires: a generic row has two halves of three registers, any other row
may use every register. -/
def maxWires : GateKind → Nat
  | generic => 6
  | _ => rowWidth

/-- The largest number of coefficients: two halves of five for a generic row, three constants for
each of five rounds of a permutation row, the limbs and the sign for foreign arithmetic, a width
or an offset for range, table and rotation rows. -/
def maxCoeffs : GateKind → Nat
  | generic => 10
  | poseidon => 15
  | foreignFieldAdd | foreignFieldMul => 4
  | lookup | rangeCheck0 | rangeCheck1 | rot64 => 1
  | zero | completeAdd | varBaseMul | endoMul | endoMulScalar | xor16 => 0

end GateKind

end ArithCircuit
