import ArithCircuit.Proofs.Compile

/-! Soundness of the lowering. The values on the wires of a circuit determine an assignment of its
variables, through their representatives. If every generic row computes zero, this assignment
satisfies every equation that was accepted. Nothing is said about rows of other kinds. -/
namespace ArithCircuit

variable {p : Nat} [Modulus p]

/-- The value on a wire; a register that is not used reads zero. -/
def wireValue (values : Nat → Residue p) (wire : UInt32) : Residue p :=
  if wire = 0 then 0 else values wire.toNat

/-- Every half of the gate, if it is a generic one, computes zero. -/
def Gate.Vanishes (values : Nat → Residue p) (gate : Gate p) : Prop :=
  gate.kind = .generic → gate.Computes (wireValue values) 0

instance (values : Nat → Residue p) (gate : Gate p) : Decidable (gate.Vanishes values) :=
  inferInstanceAs (Decidable (gate.kind = .generic → gate.Computes (wireValue values) 0))

/-- What the wires of a circuit say about its signals. -/
def Circuit.onSignals (circuit : Circuit p) (values : Nat → Residue p) : Signal → Residue p :=
  Signal.valuation (fun index => values (index + 1)) fun index =>
    values (circuit.externalCount + index + 1)

theorem Circuit.onWires_onSignals (circuit : Circuit p) (values : Nat → Residue p) :
    circuit.onWires (circuit.onSignals values) = wireValue values := by
  funext wire
  rw [onWires, signalOf, wireValue]
  split_ifs with hUnused hVar
  · rfl
  · have hPositive : wire.toNat ≠ 0 := fun h => hUnused (UInt32.toNat_inj.mp h)
    have hNumber : wire.toNat - 1 + 1 = wire.toNat := by omega
    exact congrArg values hNumber
  · have hNumber : circuit.externalCount + (wire.toNat - 1 - circuit.externalCount) + 1 =
        wire.toNat := by
      have hPositive : wire.toNat ≠ 0 := fun h => hUnused (UInt32.toNat_inj.mp h)
      omega
    exact congrArg values hNumber

/-- Where the rows of a finished circuit vanish, everything that was emitted holds. -/
theorem Circuit.Realizes.emissions_hold {circuit : Circuit p} {settings : Settings}
    {table : VariableTable p} {draft : Draft p} {live : Nat → Prop} {waiting : List (Assertion p)}
    (h : circuit.Realizes settings table waiting draft) (hLess : ∀ x, live x → x < table.size)
    (hDraft : draft.WellFormed live) {values : Nat → Residue p}
    (hRows : ∀ gate ∈ circuit.gates.drop circuit.publicCount, gate.Vanishes values) :
    ∀ emission ∈ draft.emitted.toList, emission.Holds (circuit.onSignals values) := by
  refine (h.computes_zero_iff hDraft hLess _).mp fun gate hGate hKind => ?_
  rw [onWires_onSignals]
  exact hRows gate hGate hKind

/-- Where the rows of a finished circuit vanish, the equations hold that were left to lower. -/
theorem Circuit.Realizes.equationsHold {circuit : Circuit p} {settings : Settings}
    {table : VariableTable p} {draft : Draft p} {live : Nat → Prop} {waiting : List (Assertion p)}
    (h : circuit.Realizes settings table waiting draft) (hLess : ∀ x, live x → x < table.size)
    (hEmits : Draft.Emits live (Recording.EquationsHold table waiting) .empty draft)
    {values : Nat → Residue p}
    (hRows : ∀ gate ∈ circuit.gates.drop circuit.publicCount, gate.Vanishes values) :
    Recording.EquationsHold table waiting (circuit.onSignals values) := by
  have hAll := h.emissions_hold hLess hEmits.wellFormed hRows
  obtain ⟨added, hAdded, hIff⟩ := hEmits.emitted
  refine (hIff _ (hEmits.wellFormed.solves hAll)).mp fun emission hMem => hAll emission ?_
  rw [hAdded]
  exact List.mem_append_right _ hMem

/-- The lowering is sound. Whatever is put on the wires, if all generic rows after the public ones
compute zero, then the variables, valued through their representatives, satisfy every equation that
was accepted, and public inputs have the values on their wires. -/
theorem Recording.finalize_sound [Fact p.Prime] (settings : Settings)
    (publics privates : List (Option (Residue p))) (assertions : List (Assertion p))
    (hVars : ∀ a ∈ assertions, ∀ x ∈ a.constraint.vars, x < publics.length + privates.length)
    {log : List (Outcome p)} {recording : Recording p} {table final : VariableTable p}
    {circuit : Circuit p}
    (hAdd : (start settings).addAll (.allocated publics privates) assertions =
      (log, recording, table))
    (hFinalize : recording.finalize table = (.ok circuit, final))
    (values : Nat → Residue p)
    (hRows : ∀ gate ∈ circuit.gates.drop circuit.publicCount, gate.Vanishes values) :
    circuit.publicCount = publics.length ∧
    (∀ a : Assertion p, (a, .ok ()) ∈ log → a.constraint.isAlgebraic = true →
      a.Passes fun x => (final.rep x).value fun index => values (index + 1)) ∧
    ∀ x < publics.length,
      (final.rep x).value (fun index => values (index + 1)) = values (x + 1) := by
  obtain ⟨-, -, hAccepted, -, hPublic, -⟩ := addAll_allocated hVars hAdd
  obtain ⟨live, waiting, draft, hFinal, hPublic', hRealizes, hLess, hEmits⟩ :=
    hAccepted.realizes hFinalize
  have hPublicCount := hPublic'.trans hPublic
  have hTable := hFinal.recorded.wellFormed
  refine ⟨hRealizes.publicCount.trans hPublicCount, fun a ha hAlgebraic => ?_, fun x hx => ?_⟩
  · rw [Assertion.passes_iff]
    have hWaiting := hRealizes.equationsHold hLess hEmits hRows
    exact hFinal.recorded.sound _ (VariableTable.classValue_consistent hTable _) hWaiting a
      (Outcome.mem_accepted.mpr ha) hAlgebraic
  · exact VariableTable.classValue_of_free (hTable.public_free x (hPublicCount ▸ hx))

/-- An affine relation is absorbed, so its second variable is on no wire that matters: whatever
stands there, the relation and the product hold for the assignment through representatives. -/
theorem Recording.finalize_sound_affine :
    let assertions : List (Assertion 7) :=
      [⟨none, .equal (.var 1) (.add (.scale (.ofNat 7 2) (.var 0)) 1)⟩,
        ⟨none, .product (.var 0) (.var 1) (.var 2)⟩]
    let recorded := (start Preset.aggressive.settings).addAll (.allocated [none] [none, none])
      assertions
    let values : Nat → Residue 7 := fun wire => if wire = 3 then .ofNat 7 3 else 1
    recorded.1.map Prod.snd = [.ok (), .ok ()] ∧
    ∃ circuit final, recorded.2.1.finalize recorded.2.2 = (.ok circuit, final) ∧
      (∀ gate ∈ circuit.gates.drop circuit.publicCount, gate.Vanishes values) ∧
      ∀ a : Assertion 7, (a, .ok ()) ∈ recorded.1 → a.constraint.isAlgebraic = true →
        a.Passes fun x => (final.rep x).value fun index => values (index + 1) := by
  intro assertions recorded values
  have : Fact (Nat.Prime 7) := ⟨by decide⟩
  have hLog : recorded.1.map Prod.snd = [.ok (), .ok ()] := by decide +kernel
  have hGates : (recorded.2.1.finalize recorded.2.2).1.toOption.map
      (fun circuit => decide (∀ gate ∈ circuit.gates.drop circuit.publicCount,
        gate.Vanishes values)) = some true := by decide +kernel
  rcases hResult : recorded.2.1.finalize recorded.2.2 with ⟨result, final⟩
  rw [hResult] at hGates
  cases result with
  | error stop => cases hGates
  | ok circuit =>
      have hRows : ∀ gate ∈ circuit.gates.drop circuit.publicCount, gate.Vanishes values :=
        of_decide_eq_true (Option.some.inj hGates)
      have hSound := finalize_sound Preset.aggressive.settings [none] [none, none] assertions
        (by decide) rfl hResult values hRows
      exact ⟨hLog, circuit, final, rfl, hRows, hSound.2.1⟩

end ArithCircuit
