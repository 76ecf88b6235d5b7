import ArithCircuit.Circuit.Listing
import ArithCircuit.Proofs.Tokens
import ArithCircuit.Proofs.Traversal

/-! The lines of a listing. First come the definitions of the coefficients that are written by name.
Then, for each row, come a line with its gate and coefficients, the lines of its registers, and an
empty line. Only a register without a name stops a listing. -/
namespace ArithCircuit

open Text

namespace Circuit

variable {p : Nat}

/-- The line that defines the name of a coefficient. -/
def definitionLine (position : Nat) (coeff : Residue p) : String :=
  coeffName position ++ " = " ++ coeff.signed

def definitionLines : Nat → List (Residue p) → List String
  | _, [] => []
  | position, coeff :: rest =>
    definitionLine position coeff :: definitionLines (position + 1) rest

/-- Coefficients in groups: those of a second half stand apart. -/
def tokenGroups (kind : GateKind) (tokens : List String) : List (List String) :=
  if kind = .generic ∧ 5 < tokens.length then [tokens.take 5, tokens.drop 5] else [tokens]

/-- The first line of a row, with its coefficients as they are written. -/
def headerLine (publicCount row : Nat) (kind : GateKind) (tokens : List String) : String :=
  "row" ++ row.repr ++ "." ++ ((if row < publicCount then "pub." else "") ++ kind.name ++ "<" ++
    ("><".intercalate ((tokenGroups kind tokens).map ",".intercalate) ++ ">"))

/-- The name of a register in a row of the given kind. -/
def registerLabel (kind : GateKind) (register : Nat) : String :=
  if kind = .generic then "." ++ (registerName? register).getD "" else "[" ++ register.repr ++ "]"

/-- A used register and the variable in it. -/
def cellToken (kind : GateKind) (register : Nat × UInt32) : String :=
  registerLabel kind register.1 ++ "=v" ++ (register.2.toNat - 1).repr

/-- The used registers of a row by lines. -/
def cellGroups (gate : Gate p) : List (List (Nat × UInt32)) :=
  (if gate.kind = .generic then
      [(usedRegisters gate).filter fun register => register.1 < 3,
        (usedRegisters gate).filter fun register => 3 ≤ register.1]
    else [usedRegisters gate]).filter (· ≠ [])

def cellLines (gate : Gate p) : List String :=
  (cellGroups gate).map fun group => ", ".intercalate (group.map (cellToken gate.kind))

/-- The lines of the rows from a given one on. Each row ends with an empty line. -/
def rowsLines (publicCount : Nat) (named : OrderedSet (Residue p)) :
    Nat → List (Gate p) → List String
  | _, [] => []
  | row, gate :: rest =>
    headerLine publicCount row gate.kind (gate.coeffs.map (coeffText named)) ::
      (cellLines gate ++ "" :: rowsLines publicCount named (row + 1) rest)

/-- The lines of a listing. -/
def listingLines (circuit : Circuit p) : List String :=
  definitionLines 0 (namedCoeffs circuit.gates).items.toList ++
    rowsLines circuit.publicCount (namedCoeffs circuit.gates) 0 circuit.gates

end Circuit

/-- Every register that the gate uses has a name. -/
def Gate.Legible {p : Nat} (gate : Gate p) : Prop :=
  gate.kind = .generic → ∀ register ∈ Circuit.usedRegisters gate, register.1 < 6

namespace Circuit

variable {p : Nat} {kind : GateKind} {gate : Gate p}

theorem mem_usedRegisters {register : Nat × UInt32} :
    register ∈ usedRegisters gate ↔
      gate.wires.toList[register.1]? = some register.2 ∧ register.2 ≠ 0 := by
  rw [usedRegisters, List.mem_filter, decide_eq_true_iff, and_congr_left_iff]
  intro _
  rw [List.mem_map]
  constructor
  · rintro ⟨⟨word, index⟩, hMem, rfl⟩
    exact List.mem_zipIdx_iff_getElem?.mp hMem
  · intro hAt
    exact ⟨register.swap, List.mem_zipIdx_iff_getElem?.mpr hAt, Prod.swap_swap _⟩

theorem cellText_eq {register : Nat × UInt32} (h : kind = .generic → register.1 < 6) :
    cellText kind register = .ok (cellToken kind register) := by
  rw [cellText, cellToken, registerLabel]
  split_ifs with hGeneric
  · obtain ⟨name, hName⟩ : ∃ name, registerName? register.1 = some name :=
      ⟨_, List.getElem?_eq_getElem (h hGeneric)⟩
    simp only [hName, Option.getD_some, String.append_assoc]
  · simp only [String.append_assoc]

theorem cellsLine_eq (kind : GateKind) (group : List (Nat × UInt32)) :
    cellsLine (group.map (cellToken kind)) = terminate "\n"
      (([group].filter (· ≠ [])).map fun group => ", ".intercalate (group.map (cellToken kind))) := by
  cases group with
  | nil => rfl
  | cons register rest => simp [cellsLine, terminate]

theorem cellsText_eq (hGate : gate.Legible) :
    cellsText gate = .ok (terminate "\n" (cellLines gate)) := by
  have hCells (registers : List (Nat × UInt32)) (hSubset : registers ⊆ usedRegisters gate) :
      registers.mapM (cellText gate.kind) = .ok (registers.map (cellToken gate.kind)) :=
    Traversal.mapM_eq_map fun register hRegister =>
      cellText_eq fun hGeneric => hGate hGeneric register (hSubset hRegister)
  have hFirst := hCells ((usedRegisters gate).filter fun register => register.1 < 3)
    List.filter_sublist.subset
  have hSecond := hCells ((usedRegisters gate).filter fun register => 3 ≤ register.1)
    List.filter_sublist.subset
  rw [cellsText, cellLines, cellGroups]
  split_ifs with hGeneric
  · rw [hFirst, hSecond]
    simp only [bind, Except.bind, pure, Except.pure]
    rw [cellsLine_eq, cellsLine_eq, ← terminate_append, ← List.map_append, ← List.filter_append]
    rfl
  · rw [hCells _ (List.Subset.refl _)]
    simp only [bind, Except.bind, pure, Except.pure]
    rw [cellsLine_eq]

theorem definitions_eq (position : Nat) (coeffs : List (Residue p)) :
    definitions position coeffs = terminate "\n" (definitionLines position coeffs) := by
  induction coeffs generalizing position with
  | nil => rfl
  | cons coeff rest ih =>
      rw [definitions, ih, definitionLines, terminate_cons, definitionLine]

theorem coeffsText_eq (named : OrderedSet (Residue p)) (gate : Gate p) :
    coeffsText named gate = "><".intercalate ((tokenGroups gate.kind
      (gate.coeffs.map (coeffText named))).map ",".intercalate) := by
  simp only [coeffsText, tokenGroups]
  split_ifs
  · rfl
  · rfl

theorem rowsText_eq (publicCount : Nat) (named : OrderedSet (Residue p)) (row : Nat)
    {gates : List (Gate p)} (hGates : ∀ gate ∈ gates, gate.Legible) :
    rowsText publicCount named row gates =
      .ok (terminate "\n" (rowsLines publicCount named row gates)) := by
  induction gates generalizing row with
  | nil => rfl
  | cons gate rest ih =>
      obtain ⟨hGate, hRest⟩ := List.forall_mem_cons.mp hGates
      simp only [rowsText, rowText, cellsText_eq hGate, ih (row + 1) hRest]
      have hClose : ">\n" = ">" ++ "\n" := rfl
      rw [rowsLines, terminate_cons, terminate_append, terminate_cons, headerLine, coeffsText_eq,
        hClose]
      simp only [String.append_assoc, String.empty_append]

theorem listing_eq {circuit : Circuit p} (hGates : ∀ gate ∈ circuit.gates, gate.Legible) :
    circuit.listing = .ok (terminate "\n" circuit.listingLines) := by
  simp only [listing, rowsText_eq _ _ _ hGates]
  rw [definitions_eq, listingLines, terminate_append]

end Circuit

end ArithCircuit
