import ArithCircuit.Fault
import ArithCircuit.Gate.Generic

/-!
Gates, the rows of a circuit. Each register of a row names the variable it holds by a wire
number; zero marks a register that is not used.
-/

namespace ArithCircuit

/-- A row: its kind, one wire for each register, and its coefficients. -/
structure Gate (p : Nat) where
  kind : GateKind
  wires : Vector UInt32 rowWidth
  coeffs : List (Residue p)
deriving DecidableEq

namespace Gate

variable {p : Nat}

/-- Fill the registers from the first on; the remaining ones are not used. -/
def padWires (wires : List UInt32) : Vector UInt32 rowWidth :=
  Vector.ofFn fun register => wires.getD register.val 0

/-- The empty row. -/
def zero : Gate p := ⟨.zero, padWires [], []⟩

/-- A gate on the given wires, if its kind holds that many wires and coefficients. -/
def ofWires (kind : GateKind) (wires : List UInt32) (coeffs : List (Residue p)) :
    Except Fault (Gate p) :=
  match kind.checkArity wires.length coeffs.length with
  | .error fault => .error fault
  | .ok () => .ok ⟨kind, padWires wires, coeffs⟩

/-- The number of registers up to the last used one. -/
def usedWires (gate : Gate p) : Nat :=
  rowWidth - (gate.wires.toList.reverse.takeWhile (· == 0)).length

/-- Check a gate against the arity of its kind. -/
def validate (gate : Gate p) : Except Fault Unit :=
  gate.kind.checkArity gate.usedWires gate.coeffs.length

end Gate

end ArithCircuit
