import ArithCircuit.Circuit.Basic
import ArithCircuit.OrderedSet

/-!
Circuits as text for people: a block for each row with its gate, its coefficients, and the
variables in its registers. Coefficients of five characters or more get names, which are defined
at the top in the order of their first use.
-/

namespace ArithCircuit.Circuit

variable {p : Nat} [Modulus p]

/-- Whether a coefficient is written by name. -/
def isNamed (coeff : Residue p) : Bool := 5 ≤ coeff.signed.utf8ByteSize

/-- The coefficients that are written by name. -/
def namedCoeffs (gates : List (Gate p)) : OrderedSet (Residue p) :=
  (gates.flatMap Gate.coeffs).foldl
    (fun named coeff => if isNamed coeff then named.insert coeff else named) .empty

/-- The name of the coefficient at a position. -/
def coeffName (position : Nat) : String := "c" ++ position.repr

/-- The definitions of named coefficients from a position on. -/
def definitions : Nat → List (Residue p) → String
  | _, [] => ""
  | position, coeff :: rest =>
    coeffName position ++ " = " ++ coeff.signed ++ "\n" ++ definitions (position + 1) rest

/-- A coefficient, by name if it has one. -/
def coeffText (named : OrderedSet (Residue p)) (coeff : Residue p) : String :=
  if isNamed coeff then
    match named.position? coeff with
    | some position => coeffName position
    | none => coeff.signed
  else coeff.signed

/-- The coefficients of a gate; those of a second half stand apart. -/
def coeffsText (named : OrderedSet (Residue p)) (gate : Gate p) : String :=
  let texts := gate.coeffs.map (coeffText named)
  if gate.kind = .generic ∧ 5 < texts.length then
    ",".intercalate (texts.take 5) ++ "><" ++ ",".intercalate (texts.drop 5)
  else ",".intercalate texts

/-- The name of a register of a generic row. -/
def registerName? (register : Nat) : Option String :=
  ["l1", "r1", "o1", "l2", "r2", "o2"][register]?

/-- The used registers of a gate with their wires. -/
def usedRegisters (gate : Gate p) : List (Nat × UInt32) :=
  (gate.wires.toList.zipIdx.map Prod.swap).filter fun register => register.2 ≠ 0

/-- A used register and the variable in it. A generic row uses no register without a name. -/
def cellText (kind : GateKind) (register : Nat × UInt32) : Except Stop String :=
  let variableText := "=v" ++ (register.2.toNat - 1).repr
  if kind = .generic then
    match registerName? register.1 with
    | some name => .ok ("." ++ name ++ variableText)
    | none => .error .abort
  else .ok ("[" ++ register.1.repr ++ "]" ++ variableText)

/-- Registers on a line of their own, if there are any. -/
def cellsLine : List String → String
  | [] => ""
  | cells => ", ".intercalate cells ++ "\n"

/-- The registers of a gate; those of a second half stand on a second line. -/
def cellsText (gate : Gate p) : Except Stop String := do
  let used := usedRegisters gate
  if gate.kind = .generic then
    let first ← (used.filter fun register => register.1 < 3).mapM (cellText gate.kind)
    let second ← (used.filter fun register => 3 ≤ register.1).mapM (cellText gate.kind)
    return cellsLine first ++ cellsLine second
  else
    let cells ← used.mapM (cellText gate.kind)
    return cellsLine cells

/-- The block of a row. -/
def rowText (publicCount : Nat) (named : OrderedSet (Residue p)) (row : Nat) (gate : Gate p) :
    Except Stop String :=
  match cellsText gate with
  | .error stop => .error stop
  | .ok cells =>
    .ok ("row" ++ row.repr ++ "." ++ (if row < publicCount then "pub." else "") ++
      gate.kind.name ++ "<" ++ coeffsText named gate ++ ">\n" ++ cells ++ "\n")

/-- The blocks of rows from a given one on. -/
def rowsText (publicCount : Nat) (named : OrderedSet (Residue p)) :
    Nat → List (Gate p) → Except Stop String
  | _, [] => .ok ""
  | row, gate :: rest =>
    match rowText publicCount named row gate with
    | .error stop => .error stop
    | .ok block =>
      match rowsText publicCount named (row + 1) rest with
      | .error stop => .error stop
      | .ok blocks => .ok (block ++ blocks)

/-- The listing of a circuit. -/
def listing (circuit : Circuit p) : Except Stop String :=
  let named := namedCoeffs circuit.gates
  match rowsText circuit.publicCount named 0 circuit.gates with
  | .error stop => .error stop
  | .ok rows => .ok (definitions 0 named.items.toList ++ rows)

end ArithCircuit.Circuit
