import ArithCircuit.Gate.Basic
import ArithCircuit.Lowering.Draft

/-!
Rows and their gates. Emitted halves are laid out in order, one or two to a row, and never move
past a row of another kind. Wires number the variables of the circuit from one, and then the
auxiliary variables.
-/

namespace ArithCircuit

/-- What a row holds. -/
inductive Row (p : Nat) where
  | single (half : Half p)
  | double (first second : Half p)
  | other (kind : GateKind) (cells : List Signal) (coeffs : List (Residue p))

/-- Rows that are complete, and a half that waits for another one to share its row. -/
structure Layout (p : Nat) where
  rows : Array (Row p)
  pending : Option (Half p)

namespace Layout

variable {p : Nat}

/-- No rows. -/
def empty : Layout p := ⟨#[], none⟩

/-- Give the waiting half a row of its own. -/
def flush (layout : Layout p) : Layout p :=
  match layout.pending with
  | none => layout
  | some half => ⟨layout.rows.push (.single half), none⟩

/-- Lay out one more half or row. -/
def place (batch : Bool) (layout : Layout p) : Emission p → Layout p
  | .half half =>
    if batch then
      match layout.pending with
      | none => ⟨layout.rows, some half⟩
      | some first => ⟨layout.rows.push (.double first half), none⟩
    else ⟨layout.rows.push (.single half), layout.pending⟩
  | .row kind cells coeffs =>
    ⟨layout.flush.rows.push (.other kind cells coeffs), none⟩

/-- Lay out everything that was emitted. -/
def ofEmissions (batch : Bool) (emissions : List (Emission p)) : Layout p :=
  emissions.foldl (place batch) empty

/-- The number of rows that two halves share. -/
def sharedRows (layout : Layout p) : Nat :=
  layout.rows.countP fun row =>
    match row with
    | .double _ _ => true
    | _ => false

end Layout

namespace Signal

/-- The wire of a register over a circuit of `externals` variables, if it fits in 32 bits. An
unused register has wire zero. -/
def wire (externals : Nat) (signal : Option Signal) : Except Fault UInt32 :=
  match signal with
  | none => .ok 0
  | some (.var index) => fit (index + 1)
  | some (.aux index) => fit (externals + index + 1)
where
  fit (number : Nat) : Except Fault UInt32 :=
    if number < UInt32.size then .ok number.toUInt32 else .error (.wireOverflow number)

end Signal

namespace Half

variable {p : Nat}

/-- The registers of a half. -/
def registers (half : Half p) : List (Option Signal) := [half.left, half.right, half.out]

end Half

namespace Row

variable {p : Nat} [Modulus p]

/-- A gate over the wires of its registers. -/
def gateOn (externals : Nat) (kind : GateKind) (registers : List (Option Signal))
    (coeffs : List (Residue p)) : Except Fault (Gate p) :=
  match registers.mapM (Signal.wire externals) with
  | .error fault => .error fault
  | .ok wires => Gate.ofWires kind wires coeffs

/-- The gate of a row. -/
def gate (externals : Nat) : Row p → Except Fault (Gate p)
  | .single half => gateOn externals .generic half.registers half.coeffs.toList
  | .double first second =>
    gateOn externals .generic (first.registers ++ second.registers)
      (first.coeffs.toList ++ second.coeffs.toList)
  | .other kind cells coeffs => gateOn externals kind (cells.map some) coeffs

/-- The gate that exposes a public input. -/
def publicGate (externals : Nat) (index : Nat) : Except Fault (Gate p) :=
  gateOn externals .generic [some (.var index)] (Arithmetic.coeffs .publicInput).toList

end Row

namespace Layout

variable {p : Nat} [Modulus p]

/-- The gates of a circuit: the public inputs, then the rows. Gates are made in order, and a
refusal met by lowering counts after the rows that were complete by then. -/
def gates (layout : Layout p) (externals publicCount : Nat) (lowered : Except Fault Unit) :
    Except Fault (List (Gate p)) := do
  let exposed ← (List.range publicCount).mapM (Row.publicGate externals)
  let complete ← layout.rows.toList.mapM (Row.gate externals)
  lowered
  let last ← (layout.pending.toList.map Row.single).mapM (Row.gate externals)
  return exposed ++ complete ++ last

end Layout

end ArithCircuit
