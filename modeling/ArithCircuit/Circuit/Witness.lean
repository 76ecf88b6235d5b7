import ArithCircuit.Circuit.Basic

/-!
Witnesses and the cells that they put into the rows of a circuit. The cells of a row are filled
from the values of the variables allocated by the circuit, and from those of the auxiliary
variables, which their definitions determine. Verification checks the generic rows.
-/

namespace ArithCircuit

/-- The values of the variables allocated by a circuit, as far as they are known. Public inputs
come first. -/
structure Witness (p : Nat) where
  values : Array (Option (Residue p))
  publicCount : Nat
deriving DecidableEq

namespace Witness

variable {p : Nat}

/-- The value of a variable. -/
def get (witness : Witness p) (index : Nat) : Except Fault (Residue p) :=
  match witness.values[index]? with
  | some (some value) => .ok value
  | _ => .error (.missingValue index)

/-- The values of `count` variables from a given one on. The first that is missing ends the
reading, so a count far beyond the values costs nothing. -/
def valuesFrom (witness : Witness p) : Nat → Nat → Except Fault (List (Residue p))
  | _, 0 => .ok []
  | index, count + 1 =>
    match witness.get index with
    | .error fault => .error fault
    | .ok value =>
      match witness.valuesFrom (index + 1) count with
      | .error fault => .error fault
      | .ok rest => .ok (value :: rest)

/-- The values of the public inputs. -/
def publicValues (witness : Witness p) : Except Fault (List (Residue p)) :=
  witness.valuesFrom 0 witness.publicCount

end Witness

/-- The values in the registers of a row. -/
abbrev Cells (p : Nat) := Vector (Residue p) rowWidth

namespace Circuit

variable {p : Nat} [Modulus p]

/-- The value of a signal, given those of the auxiliary variables computed so far. Definitions
and wires refer to no later ones. -/
def signalValue (witness : Witness p) (aux : Array (Residue p)) :
    Signal → Except Stop (Residue p)
  | .var index => (witness.get index).mapError .fault
  | .aux index =>
    match aux[index]? with
    | some value => .ok value
    | none => .error .abort

/-- The sum of scaled signals and a value. -/
def termsValue (witness : Witness p) (aux : Array (Residue p)) :
    Residue p → List (Residue p × Signal) → Except Stop (Residue p)
  | sum, [] => .ok sum
  | sum, (coeff, signal) :: rest =>
    match signalValue witness aux signal with
    | .error stop => .error stop
    | .ok value => termsValue witness aux (sum + coeff * value) rest

/-- The values of auxiliary variables, in order, after those computed so far. -/
def auxValues (witness : Witness p) :
    Array (Residue p) → List (AuxDef p) → Except Stop (Array (Residue p))
  | aux, [] => .ok aux
  | aux, definition :: rest =>
    match termsValue witness aux definition.constant definition.terms with
    | .error stop => .error stop
    | .ok value => auxValues witness (aux.push value) rest

/-- The signal that a wire stands for; wire zero stands for none. -/
def signalOf (circuit : Circuit p) (wire : UInt32) : Option Signal :=
  if wire = 0 then none
  else if wire.toNat - 1 < circuit.externalCount then some (.var (wire.toNat - 1))
  else some (.aux (wire.toNat - 1 - circuit.externalCount))

/-- The value of a register; one that is not used holds zero. -/
def cellValue (circuit : Circuit p) (witness : Witness p) (aux : Array (Residue p))
    (wire : UInt32) : Except Stop (Residue p) :=
  match circuit.signalOf wire with
  | none => .ok 0
  | some signal => signalValue witness aux signal

/-- Fill the registers of every row. -/
def assign (circuit : Circuit p) (witness : Witness p) : Except Stop (List (Cells p)) := do
  let aux ← auxValues witness #[] circuit.aux
  circuit.gates.mapM fun gate => gate.wires.mapM (circuit.cellValue witness aux)

/-- Split coefficients into halves; fewer than five at the end belong to none. -/
def halvesOf : List (Residue p) → List (HalfCoeffs p)
  | left :: right :: out :: product :: constant :: rest =>
    ⟨left, right, out, product, constant⟩ :: halvesOf rest
  | _ => []

/-- The value of a register. -/
def cell (cells : Cells p) (register : Nat) : Residue p := cells[register]?.getD 0

/-- The label of faults about a row. -/
def rowLabel (row : Nat) : String := "row" ++ row.repr

/-- Check the halves of a generic row from a given one on; each must compute `input`. -/
def verifyHalves (row : Nat) (cells : Cells p) (input : Residue p) :
    Nat → List (HalfCoeffs p) → Except Fault Unit
  | _, [] => .ok ()
  | half, coeffs :: rest =>
    let l := cell cells (3 * half)
    let r := cell cells (3 * half + 1)
    let o := cell cells (3 * half + 2)
    if coeffs.residual l r o - input = 0 then verifyHalves row cells input (half + 1) rest
    else
      .error (.unsatisfied (some (rowLabel row))
        (GateKind.generic.name ++ " (half " ++ half.repr ++ ")")
        [l.signed, r.signed, o.signed])

/-- Check rows from a given one on. The rows of public inputs come first and must compute their
values; all other generic rows must compute zero. -/
def verifyFrom (row : Nat) (inputs : List (Residue p)) :
    List (Gate p) → List (Cells p) → Except Fault Unit
  | gate :: gates, cells :: rows =>
    let checked :=
      if gate.kind = .generic then
        verifyHalves row cells (inputs.headD 0) 0 (halvesOf gate.coeffs)
      else .ok ()
    match checked with
    | .error fault => .error fault
    | .ok () => verifyFrom (row + 1) inputs.tail gates rows
  | _, _ => .ok ()

/-- Check the cells of all rows against public values. The first row that fails, and in it the
first half, gives the fault. Rows of other kinds than generic are not checked. -/
def verify (circuit : Circuit p) (rows : List (Cells p)) (inputs : List (Residue p)) :
    Except Fault Unit :=
  if inputs.length ≠ circuit.publicCount then
    .error (.publicCount inputs.length circuit.publicCount)
  else if rows.length ≠ circuit.gates.length then
    .error (.valueCount rows.length circuit.gates.length)
  else verifyFrom 0 inputs circuit.gates rows

end Circuit

end ArithCircuit
