import ArithCircuit.Circuit.Basic
import ArithCircuit.Lowering.Emit
import ArithCircuit.Lowering.Rows
import ArithCircuit.Recording

/-!
From a recording to a circuit. What waits is offered to the classes once more, the rest is
lowered, and the halves and rows are laid out as gates.
-/

namespace ArithCircuit.Recording

variable {p : Nat} [Modulus p]

/-- Lower what waits, over a table whose classes no longer change. -/
def assemble (recording : Recording p) (table : VariableTable p) (waiting : List (Assertion p))
    (unified : Nat) : Except Fault (Circuit p) := do
  let (lowered, draft) := Draft.empty.lowerAll recording.settings table waiting
  let layout := Layout.ofEmissions recording.settings.batchHalves draft.emitted.toList
  let gates ← layout.gates table.size table.publicCount lowered
  let publicWord ← Circuit.publicWord table.publicCount
  return {
    gates := gates
    publicCount := table.publicCount
    externalCount := table.size
    aux := draft.aux.toList
    digest := Circuit.digestOf gates publicWord
    stats := ⟨recording.recorded, unified, gates.length, layout.sharedRows, draft.aux.size⟩ }

/-- Finish a recording. The table keeps what its classes absorbed, also when the recording is
refused. -/
def finalize (recording : Recording p) (table : VariableTable p) :
    Except Stop (Circuit p) × VariableTable p :=
  match table.absorbAll recording.settings recording.waiting.toList with
  | (.error stop, table) => (.error stop, table)
  | (.ok (waiting, unified), table) =>
    match recording.assemble table waiting (recording.unified + unified) with
    | .error fault => (.error (.fault fault), table)
    | .ok circuit => (.ok circuit, table)

end ArithCircuit.Recording
