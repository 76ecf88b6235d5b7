import ArithCircuit.Circuit.Document
import ArithCircuit.Proofs.Compile
import ArithCircuit.Proofs.Json
import ArithCircuit.Residue.Pasta

/-! Documents for interchange. Every field of a document is read back from its text, so a document
that passes its own check is read back as it is. The document of a finished circuit passes, and only
documents that pass are read at all. -/
namespace ArithCircuit

namespace Json

/-- In a record whose names differ, each name selects its own field. -/
theorem filter_eq_singleton {members : List (String × Json)}
    (hNames : (members.map Prod.fst).Nodup) {member : String × Json} (h : member ∈ members) :
    members.filter (fun other => other.1 = member.1) = [member] := by
  induction members with
  | nil => cases h
  | cons head rest ih =>
      obtain ⟨hHead, hRest⟩ := List.nodup_cons.mp hNames
      rcases List.mem_cons.mp h with rfl | hMem
      · have hNone : rest.filter (fun other => other.1 = member.1) = [] := by
          apply List.filter_eq_nil_iff.mpr
          intro other hOther hSame
          apply hHead
          rw [← of_decide_eq_true hSame]
          exact List.mem_map_of_mem hOther
        rw [List.filter_cons_of_pos (by simp), hNone]
      · have hOther : ¬ head.1 = member.1 := by
          intro hSame
          rw [hSame] at hHead
          exact hHead (List.mem_map_of_mem hMem)
        rw [List.filter_cons_of_neg (by simpa using hOther), ih hRest hMem]

/-- The fields of a record are found under their names. -/
theorem fields?_record {members : List (String × Json)}
    (hNames : (members.map Prod.fst).Nodup) :
    (record members).fields? (members.map Prod.fst) = some (members.map Prod.snd) := by
  have hKeys : (members.map fun member => (escape member.1.toList, member.2)).mapM
      (fun member => unescape? member.1) = some (members.map fun member => member.1.toList) := by
    rw [List.mapM_map]
    exact Traversal.mapM_eq_some_map fun member _ => unescape?_escape _
  rw [record, fields?, hKeys]
  simp only [List.zip_map', List.mapM_map]
  apply Traversal.mapM_eq_some_map
  intro member hMember
  have hFilter := filter_eq_singleton hNames hMember
  rw [Function.comp_apply, List.filter_map]
  have hSame : ((fun entry : List Char × List Char × Json => decide (entry.1 = member.1.toList)) ∘
      fun other : String × Json => (other.1.toList, escape other.1.toList, other.2)) =
        fun other => decide (other.1 = member.1) := by
    funext other
    simp [String.toList_inj]
  rw [hSame, hFilter]
  rfl

@[simp] theorem word?_ofNat (word : UInt32) : (ofNat word.toNat).word? = some word := by
  rw [word?, nat?_ofNat]
  simp only [if_pos word.toNat_lt, Nat.toUInt32, UInt32.ofNat_toNat]

end Json

theorem GateKind.ofJson?_ofText (kind : GateKind) : ofJson? (.ofText kind.name) = some kind := by
  show (Json.ofText kind.name).text?.bind ofName? = some kind
  rw [Json.text?_ofText, Option.bind_some, ofName?_name]

namespace Gate

variable {p : Nat}

theorem padWires_toList_eq {wires : List UInt32} (h : wires.length ≤ rowWidth) :
    (padWires wires).toList = wires ++ List.replicate (rowWidth - wires.length) 0 := by
  apply List.ext_getElem
  · simp [h]
  · intro i h₁ h₂
    by_cases hi : i < wires.length
    · simp [padWires, hi]
    · rw [List.getElem_append_right (by omega)]
      simp [padWires, hi]

@[simp] theorem padWires_toList (wires : Vector UInt32 rowWidth) :
    padWires wires.toList = wires := by
  apply Vector.toList_inj.mp
  rw [padWires_toList_eq (by simp)]
  simp

/-- Registers that were left over do not count as used. -/
theorem usedWires_padWires_le (kind : GateKind) {wires : List UInt32}
    (h : wires.length ≤ rowWidth) (coeffs : List (Residue p)) :
    (⟨kind, padWires wires, coeffs⟩ : Gate p).usedWires ≤ wires.length := by
  rw [usedWires, padWires_toList_eq h, List.reverse_append, List.reverse_replicate,
    List.takeWhile_append_of_pos (by simp), List.length_append, List.length_replicate]
  omega

theorem validate_eq_ok_iff {gate : Gate p} :
    gate.validate = .ok () ↔
      gate.usedWires ≤ gate.kind.maxWires ∧ gate.coeffs.length ≤ gate.kind.maxCoeffs := by
  rw [validate, GateKind.checkArity]
  split_ifs with h
  · simp only [false_iff]
    omega
  · simp only [true_iff]
    omega

theorem coeffOfJson?_ofText (coeff : Residue p) :
    coeffOfJson? (.ofText coeff.toDecimal) = some coeff := by
  rw [coeffOfJson?, Json.text?_ofText, Option.bind_some, Residue.ofNumeral_toDecimal]
  rfl

theorem wiresOfJson?_array (wires : Vector UInt32 rowWidth) :
    wiresOfJson? (.array (wires.toList.map fun wire => .ofNat wire.toNat)) = some wires := by
  rw [wiresOfJson?, Json.items?, Option.bind_some,
    Traversal.mapM_map_of_leftInverse Json.word?_ofNat]
  simp

/-- Every field of a gate is read back. -/
theorem ofJson?_toJson (gate : Gate p) : ofJson? gate.toJson = some gate := by
  have hFields : gate.toJson.fields? ["kind", "wires", "coeffs"] = some [.ofText gate.kind.name,
      .array (gate.wires.toList.map fun wire => .ofNat wire.toNat),
      .array (gate.coeffs.map fun coeff => .ofText coeff.toDecimal)] := by
    apply Json.fields?_record
    simp
  rw [ofJson?, hFields]
  simp [GateKind.ofJson?_ofText, wiresOfJson?_array, Json.items?,
    Traversal.mapM_map_of_leftInverse coeffOfJson?_ofText]

theorem toJson_written (gate : Gate p) : gate.toJson.Written := by
  apply Json.written_record
  simp only [List.forall_mem_cons, List.not_mem_nil, false_implies, implies_true, and_true]
  refine ⟨Json.written_ofText _, .array _ ?_, .array _ ?_⟩
  · simp [Json.Written.number]
  · simp [Json.written_ofText]

end Gate

namespace Document

variable {p : Nat}

/-- Every field of a document is read back. -/
theorem ofJson?_toJson (document : Document p) : ofJson? document.toJson = some document := by
  have hFields : document.toJson.fields? ["gates", "public_input_size", "digest"] =
      some [.array (document.gates.map Gate.toJson), .ofNat document.publicCount.toNat,
        .ofText document.digest] := by
    apply Json.fields?_record
    simp
  rw [ofJson?, hFields]
  simp [Json.items?, Traversal.mapM_map_of_leftInverse Gate.ofJson?_toJson]

theorem toJson_written (document : Document p) : document.toJson.Written := by
  apply Json.written_record
  simp only [List.forall_mem_cons, List.not_mem_nil, false_implies, implies_true, and_true]
  refine ⟨.array _ ?_, .number _, Json.written_ofText _⟩
  simp [Gate.toJson_written]

/-- Reading the text of a document is checking the document. -/
theorem ofText_text (document : Document p) :
    ofText document.text = document.validate.map fun _ => document := by
  have hRead : Json.ofString? document.text = some document.toJson := by
    rw [Json.ofString?, text, Json.text, String.toList_ofList]
    exact Json.read?_compact document.toJson_written
  rw [ofText, hRead, Option.bind_some, ofJson?_toJson]

/-- A document says what a circuit may: every gate fits its kind, and the digest is that of the
gates and the number of public inputs. -/
structure Valid (document : Document p) : Prop where
  wires : ∀ gate ∈ document.gates, gate.usedWires ≤ gate.kind.maxWires
  coeffs : ∀ gate ∈ document.gates, gate.coeffs.length ≤ gate.kind.maxCoeffs
  digest : document.digest = Text.hex (Circuit.digestOf document.gates document.publicCount)

theorem validate_eq_ok_iff {document : Document p} :
    document.validate = .ok () ↔ document.Valid := by
  have hDigest : (if Text.hex (Circuit.digestOf document.gates document.publicCount) =
      document.digest then Except.ok () else .error (Fault.digestMismatch document.digest
        (Text.hex (Circuit.digestOf document.gates document.publicCount)))) = .ok () ↔
      document.digest = Text.hex (Circuit.digestOf document.gates document.publicCount) := by
    split_ifs with h
    · simp [h]
    · simp [Ne.symm h]
  constructor
  · intro h
    obtain ⟨_, hGates, hRest⟩ := Traversal.exists_of_bind_eq_ok h
    rw [Traversal.forM_eq_ok_iff] at hGates
    exact ⟨fun gate hGate => (Gate.validate_eq_ok_iff.mp (hGates gate hGate)).1,
      fun gate hGate => (Gate.validate_eq_ok_iff.mp (hGates gate hGate)).2, hDigest.mp hRest⟩
  · rintro ⟨hWires, hCoeffs, hSame⟩
    have hGates : document.gates.forM Gate.validate = .ok () := Traversal.forM_eq_ok_iff.mpr
      fun gate hGate => Gate.validate_eq_ok_iff.mpr ⟨hWires gate hGate, hCoeffs gate hGate⟩
    rw [validate, hGates]
    exact hDigest.mpr hSame

/-- Only documents that pass their check are read. -/
theorem validate_of_ofText {text : String} {document : Document p}
    (h : ofText text = .ok document) : document.validate = .ok () := by
  unfold ofText at h
  split at h
  · cases h
  · rename_i found _
    cases hCheck : found.validate with
    | error fault =>
        rw [hCheck] at h
        cases h
    | ok done =>
        rw [hCheck] at h
        rw [← Except.ok.inj h, hCheck]

end Document

theorem Row.validate_of_gateOn {p externals : Nat} {kind : GateKind}
    {registers : List (Option Signal)} {coeffs : List (Residue p)} {gate : Gate p}
    (h : gateOn externals kind registers coeffs = .ok gate) : gate.validate = .ok () := by
  obtain ⟨wires, -, hArity, rfl⟩ := gateOn_eq_ok_iff.mp h
  have hUsed := Gate.usedWires_padWires_le kind (wires_le_of_checkArity hArity) coeffs
  rw [GateKind.checkArity] at hArity
  split_ifs at hArity with hTooMany
  apply Gate.validate_eq_ok_iff.mpr
  show _ ≤ kind.maxWires ∧ coeffs.length ≤ kind.maxCoeffs
  omega

/-- A number of public inputs that fits a word is kept in it. -/
theorem Circuit.publicWord_toNat {publicCount : Nat} {word : UInt32}
    (h : publicWord publicCount = .ok word) : word.toNat = publicCount := by
  rw [publicWord] at h
  split_ifs at h with hFits
  rw [← Except.ok.inj h]
  exact UInt32.toNat_ofNat_of_lt' hFits

namespace Recording

variable {p : Nat} [Modulus p] {recording : Recording p} {table final : VariableTable p}
  {circuit : Circuit p}

/-- The gates of a finished circuit fit their kinds, and each public input has a row of its own. -/
theorem gates_of_finalize (h : recording.finalize table = (.ok circuit, final)) :
    (∀ gate ∈ circuit.gates, gate.validate = .ok ()) ∧
      circuit.publicCount ≤ circuit.gates.length := by
  obtain ⟨waiting, unified, -, hAssemble⟩ := finalize_eq_ok_iff.mp h
  obtain ⟨draft, exposed, body, word, -, hExposed, hBody, -, rfl⟩ :=
    assemble_eq_ok_iff.mp hAssemble
  refine ⟨fun gate hGate => ?_, ?_⟩
  · rcases List.mem_append.mp hGate with hMem | hMem
    · obtain ⟨index, -, hMade⟩ := Traversal.exists_of_mem_right hExposed hMem
      exact Row.validate_of_gateOn hMade
    · obtain ⟨row, -, hMade⟩ := Traversal.exists_of_mem_right hBody hMem
      rw [Row.gate_eq] at hMade
      exact Row.validate_of_gateOn hMade
  · have hLength := hExposed.length_eq
    rw [List.length_range] at hLength
    show final.publicCount ≤ (exposed ++ body).length
    rw [List.length_append]
    omega

/-- The document of a finished circuit holds what the circuit does, and passes its own check. -/
theorem document_of_finalize (h : recording.finalize table = (.ok circuit, final)) :
    ∃ document, circuit.document = .ok document ∧ (document.gates = circuit.gates ∧
      document.publicCount.toNat = circuit.publicCount ∧ document.digest = circuit.digestHex) ∧
        document.Valid := by
  have hGates := (gates_of_finalize h).1
  obtain ⟨waiting, unified, -, hAssemble⟩ := finalize_eq_ok_iff.mp h
  obtain ⟨draft, exposed, body, word, -, -, -, hWord, rfl⟩ := assemble_eq_ok_iff.mp hAssemble
  refine ⟨⟨exposed ++ body, word, Text.hex (Circuit.digestOf (exposed ++ body) word)⟩, ?_,
    ⟨rfl, Circuit.publicWord_toNat hWord, rfl⟩,
    fun gate hGate => (Gate.validate_eq_ok_iff.mp (hGates gate hGate)).1,
    fun gate hGate => (Gate.validate_eq_ok_iff.mp (hGates gate hGate)).2, rfl⟩
  show (Circuit.publicWord final.publicCount).map _ = _
  rw [hWord]
  rfl

end Recording

namespace Document

variable {p : Nat} [Modulus p]

/-- Documents and their texts. The check of a document passes exactly if its gates fit their kinds
and its digest is theirs, and then the document is read back from its text, whatever its wires, its
coefficients and its number of public inputs. Every finished circuit has such a document, with its
gates, its number of public inputs and its digest, and what is read back from its text is written as
the same text again. Whatever a text holds, what is read from it passes the check. -/
theorem text_roundtrip :
    (∀ document : Document p, document.validate = .ok () ↔ document.Valid) ∧
    (∀ document : Document p, document.Valid → ofText document.text = .ok document) ∧
    (∀ (recording : Recording p) (table final : VariableTable p) (circuit : Circuit p),
      recording.finalize table = (.ok circuit, final) →
        ∃ document : Document p, circuit.document = .ok document ∧
          (document.gates = circuit.gates ∧ document.publicCount.toNat = circuit.publicCount ∧
            document.digest = circuit.digestHex) ∧
          ofText document.text = .ok document ∧
          (ofText document.text).map (text (p := p)) = .ok document.text) ∧
    ∀ (text : String) (document : Document p), ofText text = .ok document → document.Valid := by
  have hRead (document : Document p) (hValid : document.Valid) :
      ofText document.text = .ok document := by
    rw [ofText_text, validate_eq_ok_iff.mpr hValid]
    rfl
  refine ⟨fun _ => validate_eq_ok_iff, hRead, ?_, ?_⟩
  · intro recording table final circuit hFinished
    obtain ⟨document, hDocument, hHolds, hValid⟩ := Recording.document_of_finalize hFinished
    have hAgain := hRead document hValid
    refine ⟨document, hDocument, hHolds, hAgain, ?_⟩
    rw [hAgain]
    rfl
  · intro text document hAccepted
    exact validate_eq_ok_iff.mp (validate_of_ofText hAccepted)

/-- Gates on wires with the largest number and with the largest coefficients, and the document of a
circuit with a public input. -/
theorem text_roundtrip_limits :
    let gates : List (Gate pallasPrime) :=
      [⟨.poseidon, Gate.padWires (List.replicate 15 0xFFFFFFFF), List.replicate 15 (-1)⟩,
        ⟨.generic, Gate.padWires [0, 0, 0, 0, 0, 0xFFFFFFFF], List.replicate 10 (-1)⟩, .zero]
    let document : Document pallasPrime :=
      ⟨gates, 0xFFFFFFFF, Text.hex (Circuit.digestOf gates 0xFFFFFFFF)⟩
    let recorded := (Recording.start Preset.debug.settings).addAll
      (.allocated [none] []) [⟨none, .boolean (.var 0 : Expr pallasPrime)⟩]
    document.Valid ∧ ofText document.text = .ok document ∧
      ∃ circuit final, recorded.2.1.finalize recorded.2.2 = (.ok circuit, final) ∧
        ∃ document : Document pallasPrime, circuit.document = .ok document ∧
          document.publicCount.toNat = circuit.publicCount ∧
          ofText document.text = .ok document := by
  intro gates document recorded
  obtain ⟨-, hRead, hFinished, -⟩ := text_roundtrip (p := pallasPrime)
  have hValid : document.Valid := ⟨by decide +kernel, by decide +kernel, rfl⟩
  have hOk : (recorded.2.1.finalize recorded.2.2).1.isOk := by decide +kernel
  rcases hFinal : recorded.2.1.finalize recorded.2.2 with ⟨_ | circuit, final⟩
  · rw [hFinal] at hOk
    cases hOk
  obtain ⟨found, hFound, ⟨-, hPublic, -⟩, hAgain, -⟩ := hFinished _ _ _ _ hFinal
  exact ⟨hValid, hRead _ hValid, circuit, final, rfl, found, hFound, hPublic, hAgain⟩

end Document

end ArithCircuit
