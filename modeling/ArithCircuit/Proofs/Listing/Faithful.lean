import ArithCircuit.Proofs.Digest
import ArithCircuit.Proofs.Listing.Names
import ArithCircuit.Proofs.SafeReads

/-! Listings are faithful. The lines of a listing can be read back one by one, so the text
determines the gates and the number of public inputs. A name on the line of a row is defined once,
on one of the first lines, and by the numeral of the coefficient that it replaces. -/
namespace ArithCircuit

open Text

namespace Circuit

variable {p : Nat} {kind : GateKind} {gate gate' : Gate p}

/-- How a coefficient stands in a text of the given lines: by its numeral if that is short, or else
by a name. The lines down to the definition of the name are all definitions; no other line defines the
name, or another name for the coefficient. -/
inductive Stands (lines : List String) (coeff : Residue p) : String → Prop where
  | numeral (hShort : isNamed coeff = false) : Stands lines coeff coeff.signed
  | name {position : Nat}
      (hTop : ∀ i ≤ position, ∃ other : Residue p, lines[i]? = some (definitionLine i other))
      (hDefined : lines[position]? = some (definitionLine position coeff))
      (hOnce : ∀ (i : Nat) (value : String),
        lines[i]? = some (coeffName position ++ " = " ++ value) → i = position)
      (hOther : ∀ i, lines[i]? = some (definitionLine i coeff) → i = position) :
      Stands lines coeff (coeffName position)

/-- Every row is written with its coefficients as they stand in the text. -/
def Written (circuit : Circuit p) (text : String) : Prop :=
  ∀ (row : Nat) (gate : Gate p), circuit.gates[row]? = some gate →
    ∃ tokens, headerLine circuit.publicCount row gate.kind tokens ∈ linesOf text ∧
      List.Forall₂ (Stands (linesOf text)) gate.coeffs tokens

/-- A text that can stand for a coefficient among others. -/
structure IsToken (token : String) : Prop where
  nonempty : token ≠ ""
  comma : Avoids ',' token
  close : Avoids '>' token

/-- Names of kinds begin with a capital letter. -/
theorem publicMark_inj {publicCount publicCount' row : Nat} {kind' : GateKind}
    (h : (if row < publicCount then "pub." else "") ++ kind.name =
      (if row < publicCount' then "pub." else "") ++ kind'.name) :
    (row < publicCount ↔ row < publicCount') ∧ kind = kind' := by
  have hCapital (kind kind' : GateKind) : "pub." ++ kind.name ≠ kind'.name := by
    have hHead : kind'.name.toList.head? ≠ some 'p' := by cases kind' <;> decide
    intro hSame
    apply hHead
    rw [← hSame]
    simp
  split_ifs at h with hPublic hPublic' hPublic'
  · exact ⟨by simp [hPublic, hPublic'], Gate.name_injective ((String.append_right_inj _).mp h)⟩
  · rw [String.empty_append] at h
    exact absurd h (hCapital kind kind')
  · rw [String.empty_append] at h
    exact absurd h.symm (hCapital kind' kind)
  · rw [String.empty_append, String.empty_append] at h
    exact ⟨by simp [hPublic, hPublic'], Gate.name_injective h⟩

theorem tokenGroups_flatten (kind : GateKind) (tokens : List String) :
    (tokenGroups kind tokens).flatten = tokens := by
  rw [tokenGroups]
  split_ifs
  · simp
  · simp

theorem mem_of_mem_tokenGroups {tokens group : List String} {token : String}
    (hMem : group ∈ tokenGroups kind tokens) (hToken : token ∈ group) : token ∈ tokens := by
  rw [← tokenGroups_flatten kind tokens]
  exact List.mem_flatten.mpr ⟨group, hMem, hToken⟩

/-- Coefficients can be read back. -/
theorem tokenGroups_inj {tokens tokens' : List String}
    (hTokens : ∀ token ∈ tokens, IsToken token)
    (hTokens' : ∀ token ∈ tokens', IsToken token)
    (h : "><".intercalate ((tokenGroups kind tokens).map ",".intercalate) =
      "><".intercalate ((tokenGroups kind tokens').map ",".intercalate)) : tokens = tokens' := by
  have hSome (tokens : List String) : (tokenGroups kind tokens).map ",".intercalate ≠ [] := by
    rw [tokenGroups]
    split_ifs <;> simp
  have hGroup {tokens group : List String} (hTokens : ∀ token ∈ tokens, IsToken token)
      (hMem : group ∈ tokenGroups kind tokens) : ∀ token ∈ group, IsToken token :=
    fun token hToken => hTokens token (mem_of_mem_tokenGroups hMem hToken)
  have hTexts {tokens : List String}
      (hTokens : ∀ token ∈ tokens, IsToken token) :
      ∀ text ∈ (tokenGroups kind tokens).map ",".intercalate, Avoids '>' text := by
    intro text hText
    obtain ⟨group, hMem, rfl⟩ := List.mem_map.mp hText
    exact avoids_intercalate (by decide) fun token hToken => (hGroup hTokens hMem token hToken).close
  have hSame := intercalate_inj rfl (hTexts hTokens) (hTexts hTokens')
    (iff_of_false (hSome tokens) (hSome tokens')) h
  rw [← tokenGroups_flatten kind tokens, ← tokenGroups_flatten kind tokens']
  congr 1
  apply map_inj_on _ hSame
  intro group hMem group' hMem' hText
  have hAll := hGroup hTokens hMem
  have hAll' := hGroup hTokens' hMem'
  apply intercalate_inj rfl (fun token hToken => (hAll token hToken).comma)
    (fun token hToken => (hAll' token hToken).comma) _ hText
  rw [← intercalate_eq_empty_iff fun token hToken => (hAll token hToken).nonempty, hText,
    intercalate_eq_empty_iff fun token hToken => (hAll' token hToken).nonempty]

/-- The first line of a row can be read back. -/
theorem headerLine_inj {publicCount publicCount' row : Nat} {kind' : GateKind}
    {tokens tokens' : List String}
    (hTokens : ∀ token ∈ tokens, IsToken token)
    (hTokens' : ∀ token ∈ tokens', IsToken token)
    (h : headerLine publicCount row kind tokens = headerLine publicCount' row kind' tokens') :
    (row < publicCount ↔ row < publicCount') ∧ kind = kind' ∧ tokens = tokens' := by
  have hName (kind : GateKind) : Avoids '<' kind.name := by cases kind <;> decide
  have hMark (publicCount : Nat) (kind : GateKind) :
      Avoids '<' ((if row < publicCount then "pub." else "") ++ kind.name) := by
    rw [avoids_append]
    refine ⟨?_, hName kind⟩
    split_ifs <;> decide
  rw [headerLine, headerLine, String.append_right_inj] at h
  obtain ⟨hFirst, hGroups⟩ := append_mark_inj rfl (hMark publicCount kind)
    (hMark publicCount' kind') h
  obtain ⟨hPublic, rfl⟩ := publicMark_inj hFirst
  exact ⟨hPublic, rfl, tokenGroups_inj hTokens hTokens' ((String.append_left_inj _).mp hGroups)⟩

theorem coeffText_isToken (named : OrderedSet (Residue p)) (coeffs : List (Residue p)) :
    ∀ token ∈ coeffs.map (coeffText named), IsToken token := by
  intro token hToken
  obtain ⟨coeff, -, rfl⟩ := List.mem_map.mp hToken
  exact ⟨coeffText_ne_empty named coeff,
    avoids_coeffText (by decide) (by decide) (by decide) named coeff,
    avoids_coeffText (by decide) (by decide) (by decide) named coeff⟩

/-- Wires are determined by the registers that are used. -/
theorem wires_eq_of_usedRegisters
    (h : ∀ register, register ∈ usedRegisters gate ↔ register ∈ usedRegisters gate') :
    gate.wires = gate'.wires := by
  have hWire {gate gate' : Gate p}
      (h : ∀ register, register ∈ usedRegisters gate → register ∈ usedRegisters gate') {i : Nat}
      (hi : i < rowWidth) (hUsed : gate.wires[i] ≠ 0) : gate'.wires[i] = gate.wires[i] := by
    have hMem : (i, gate.wires[i]) ∈ usedRegisters gate :=
      mem_usedRegisters.mpr ⟨by simp [hi], hUsed⟩
    obtain ⟨hAt, -⟩ := mem_usedRegisters.mp (h _ hMem)
    simpa [hi] using hAt
  ext i hi
  by_cases hUsed : gate.wires[i] = 0
  · by_cases hUsed' : gate'.wires[i] = 0
    · rw [hUsed, hUsed']
    · rw [hWire (fun register => (h register).mpr) hi hUsed']
  · rw [hWire (fun register => (h register).mp) hi hUsed]

theorem registerLabel_inj {register register' : Nat} (hRegister : kind = .generic → register < 6)
    (hRegister' : kind = .generic → register' < 6)
    (h : registerLabel kind register = registerLabel kind register') : register = register' := by
  rw [registerLabel, registerLabel] at h
  split_ifs at h with hGeneric
  · have hAll : ∀ i < 6, ∀ j < 6, "." ++ (registerName? i).getD "" =
        "." ++ (registerName? j).getD "" → i = j := by decide
    exact hAll register (hRegister hGeneric) register' (hRegister' hGeneric) h
  · rw [String.append_left_inj, String.append_right_inj, Nat.repr_inj] at h
    exact h

theorem avoids_registerLabel {c : Char} (hDigit : c.isDigit = false) (hOther : Avoids c ".lro[]")
    (kind : GateKind) (register : Nat) : Avoids c (registerLabel kind register) := by
  have hNames : ∀ name ∈ ["l1", "r1", "o1", "l2", "r2", "o2"],
      (name.toList.all fun d => d.isDigit || d ∈ ".lro[]".toList) = true := by decide
  rw [registerLabel]
  split_ifs
  · rw [avoids_append]
    refine ⟨hOther.mono (by decide), ?_⟩
    cases hAt : registerName? register with
    | none => simp [Avoids]
    | some name =>
        intro hMem
        have hChar := List.all_eq_true.mp (hNames name (List.mem_of_getElem? hAt)) c hMem
        rw [hDigit, Bool.false_or, decide_eq_true_iff] at hChar
        exact hOther hChar
  · rw [avoids_append, avoids_append]
    exact ⟨⟨hOther.mono (by decide), avoids_repr hDigit register⟩, hOther.mono (by decide)⟩

theorem cellToken_inj {register register' : Nat × UInt32}
    (hRegister : kind = .generic → register.1 < 6) (hRegister' : kind = .generic → register'.1 < 6)
    (hUsed : register.2 ≠ 0) (hUsed' : register'.2 ≠ 0)
    (h : cellToken kind register = cellToken kind register') : register = register' := by
  rw [cellToken, cellToken] at h
  obtain ⟨hLabel, hVariable⟩ := append_mark_inj rfl
    (avoids_registerLabel (by decide) (by decide) kind _)
    (avoids_registerLabel (by decide) (by decide) kind _) h
  rw [Nat.repr_inj] at hVariable
  have hPositive {word : UInt32} (hWord : word ≠ 0) : 0 < word.toNat := by
    apply Nat.pos_of_ne_zero
    intro hZero
    exact hWord (UInt32.toNat_inj.mp hZero)
  have := hPositive hUsed
  have := hPositive hUsed'
  apply Prod.ext
  · exact registerLabel_inj hRegister hRegister' hLabel
  · exact UInt32.toNat_inj.mp (by omega)

/-- Used registers are written without a separator. -/
theorem avoids_cellTokens {c : Char} (hDigit : c.isDigit = false) (hOther : Avoids c ".lro[]=v")
    (kind : GateKind) (group : List (Nat × UInt32)) :
    ∀ token ∈ group.map (cellToken kind), Avoids c token := by
  intro token hToken
  obtain ⟨register, -, rfl⟩ := List.mem_map.mp hToken
  rw [cellToken, avoids_append, avoids_append]
  exact ⟨⟨avoids_registerLabel hDigit (hOther.mono (by decide)) kind _, hOther.mono (by decide)⟩,
    avoids_repr hDigit _⟩

theorem cellGroups_used {group : List (Nat × UInt32)} (h : group ∈ cellGroups gate) :
    group ≠ [] ∧ ∀ register ∈ group, register ∈ usedRegisters gate := by
  rw [cellGroups, List.mem_filter, decide_eq_true_iff] at h
  obtain ⟨hMem, hSome⟩ := h
  refine ⟨hSome, fun register hRegister => ?_⟩
  split_ifs at hMem
  · rcases List.mem_pair.mp hMem with rfl | rfl
    · exact List.mem_of_mem_filter hRegister
    · exact List.mem_of_mem_filter hRegister
  · rw [List.mem_singleton.mp hMem] at hRegister
    exact hRegister

/-- Every used register is on some line. -/
theorem exists_cellGroup {register : Nat × UInt32} (h : register ∈ usedRegisters gate) :
    ∃ group ∈ cellGroups gate, register ∈ group := by
  have hGroup {group : List (Nat × UInt32)} {groups : List (List (Nat × UInt32))}
      (hMem : group ∈ groups) (hRegister : register ∈ group) :
      ∃ group ∈ groups.filter (· ≠ []), register ∈ group :=
    ⟨group, List.mem_filter.mpr ⟨hMem, by simp [List.ne_nil_of_mem hRegister]⟩, hRegister⟩
  rw [cellGroups]
  split_ifs
  · by_cases hFirst : register.1 < 3
    · exact hGroup List.mem_cons_self (List.mem_filter.mpr ⟨h, by simp [hFirst]⟩)
    · exact hGroup (List.mem_cons_of_mem _ List.mem_cons_self)
        (List.mem_filter.mpr ⟨h, by simp [Nat.le_of_not_lt hFirst]⟩)
  · exact hGroup List.mem_cons_self h

/-- The lines of its registers determine the wires of a gate. -/
theorem cellLines_inj (hKind : gate.kind = gate'.kind) (hGate : gate.Legible)
    (hGate' : gate'.Legible) (h : cellLines gate = cellLines gate') :
    gate.wires = gate'.wires := by
  have hGroups : cellGroups gate = cellGroups gate' := by
    rw [cellLines, cellLines, ← hKind] at h
    apply map_inj_on _ h
    intro group hMem group' hMem' hLine
    obtain ⟨hSome, hUsed⟩ := cellGroups_used hMem
    obtain ⟨hSome', hUsed'⟩ := cellGroups_used hMem'
    have hTokens := avoids_cellTokens (by decide : ','.isDigit = false) (by decide) gate.kind
    have hSame := intercalate_inj rfl (hTokens group) (hTokens group')
      (iff_of_false (by simpa using hSome) (by simpa using hSome')) hLine
    apply map_inj_on _ hSame
    intro register hRegister register' hRegister' hToken
    have hMember := hUsed register hRegister
    have hMember' := hUsed' register' hRegister'
    exact cellToken_inj (fun hGeneric => hGate hGeneric register hMember)
      (fun hGeneric => hGate' (hKind ▸ hGeneric) register' hMember')
      (mem_usedRegisters.mp hMember).2 (mem_usedRegisters.mp hMember').2 hToken
  have hUsed {gate gate' : Gate p} (hGroups : cellGroups gate = cellGroups gate')
      (register : Nat × UInt32) (hRegister : register ∈ usedRegisters gate) :
      register ∈ usedRegisters gate' := by
    obtain ⟨group, hMem, hRegister⟩ := exists_cellGroup hRegister
    rw [hGroups] at hMem
    exact (cellGroups_used hMem).2 register hRegister
  exact wires_eq_of_usedRegisters fun register =>
    ⟨hUsed hGroups register, hUsed hGroups.symm register⟩

/-- A line with registers begins with the mark of its first register. -/
theorem cellLines_head {line : String} (h : line ∈ cellLines gate) :
    line.toList.head? = some '.' ∨ line.toList.head? = some '[' := by
  obtain ⟨group, hMem, rfl⟩ := List.mem_map.mp h
  obtain ⟨hSome, -⟩ := cellGroups_used hMem
  have hToken (register : Nat × UInt32) (rest : String) :
      (cellToken gate.kind register ++ rest).toList.head? = some '.' ∨
        (cellToken gate.kind register ++ rest).toList.head? = some '[' := by
    rw [cellToken, registerLabel]
    split_ifs
    · exact .inl (by simp)
    · exact .inr (by simp)
  cases group with
  | nil => exact absurd rfl hSome
  | cons register others =>
      by_cases hLast : others.map (cellToken gate.kind) = []
      · have hOnly := hToken register ""
        rw [String.append_empty] at hOnly
        rw [List.map_cons, hLast]
        exact hOnly
      · rw [List.map_cons, String.intercalate_cons_of_ne_nil hLast, String.append_assoc]
        exact hToken register _

/-- Everything on the lines of rows: their first lines, the lines of registers, and empty lines. -/
theorem mem_rowsLines {publicCount : Nat} {named : OrderedSet (Residue p)} {row : Nat}
    {gates : List (Gate p)} {line : String} (h : line ∈ rowsLines publicCount named row gates) :
    (∃ (row : Nat) (gate : Gate p), line =
        headerLine publicCount row gate.kind (gate.coeffs.map (coeffText named))) ∨
      (∃ gate ∈ gates, line ∈ cellLines gate) ∨ line = "" := by
  induction gates generalizing row with
  | nil => cases h
  | cons gate rest ih =>
      rw [rowsLines, List.mem_cons, List.mem_append, List.mem_cons] at h
      rcases h with hHeader | hCells | hEnd | hRest
      · exact .inl ⟨row, gate, hHeader⟩
      · exact .inr (.inl ⟨gate, List.mem_cons_self, hCells⟩)
      · exact .inr (.inr hEnd)
      · rcases ih hRest with hHeader | ⟨other, hOther, hCells⟩ | hEnd
        · exact .inl hHeader
        · exact .inr (.inl ⟨other, List.mem_cons_of_mem _ hOther, hCells⟩)
        · exact .inr (.inr hEnd)

/-- The lines of rows do not begin like a name. -/
theorem rowsLines_head {publicCount : Nat} {named : OrderedSet (Residue p)} {row : Nat}
    {gates : List (Gate p)} {line : String} (h : line ∈ rowsLines publicCount named row gates) :
    line.toList.head? ≠ some 'c' := by
  rcases mem_rowsLines h with ⟨row', gate, rfl⟩ | ⟨gate, -, hCells⟩ | rfl
  · simp [headerLine]
  · rcases cellLines_head hCells with hHead | hHead
    · rw [hHead]
      decide
    · rw [hHead]
      decide
  · simp

theorem avoids_headerLine (publicCount row : Nat) (named : OrderedSet (Residue p))
    (gate : Gate p) : Avoids '\n'
      (headerLine publicCount row gate.kind (gate.coeffs.map (coeffText named))) := by
  have hName : Avoids '\n' gate.kind.name := by cases gate.kind <;> decide
  have hMark : Avoids '\n' (if row < publicCount then "pub." else "") := by
    split_ifs <;> decide
  have hGroups : Avoids '\n' ("><".intercalate ((tokenGroups gate.kind
      (gate.coeffs.map (coeffText named))).map ",".intercalate)) := by
    apply avoids_intercalate (by decide)
    intro text hText
    obtain ⟨group, hMem, rfl⟩ := List.mem_map.mp hText
    apply avoids_intercalate (by decide)
    intro token hToken
    obtain ⟨coeff, -, rfl⟩ := List.mem_map.mp (mem_of_mem_tokenGroups hMem hToken)
    exact avoids_coeffText (by decide) (by decide) (by decide) named coeff
  simp only [headerLine, avoids_append]
  exact ⟨⟨⟨by decide, avoids_repr (by decide) row⟩, by decide⟩, ⟨⟨hMark, hName⟩, by decide⟩,
    hGroups, by decide⟩

theorem definitionLines_getElem? (position : Nat) (coeffs : List (Residue p)) (i : Nat) :
    (definitionLines position coeffs)[i]? = coeffs[i]?.map (definitionLine (position + i)) := by
  induction coeffs generalizing position i with
  | nil => rfl
  | cons coeff rest ih =>
      cases i with
      | zero => rfl
      | succ i =>
          rw [definitionLines, List.getElem?_cons_succ, ih, List.getElem?_cons_succ,
            Nat.add_assoc, Nat.add_comm 1]

theorem exists_of_mem_definitionLines {position : Nat} {coeffs : List (Residue p)} {line : String}
    (h : line ∈ definitionLines position coeffs) :
    ∃ (i : Nat) (coeff : Residue p), line = definitionLine (position + i) coeff := by
  obtain ⟨i, hAt⟩ := List.mem_iff_getElem?.mp h
  rw [definitionLines_getElem?] at hAt
  obtain ⟨coeff, -, hLine⟩ := Option.map_eq_some_iff.mp hAt
  exact ⟨i, coeff, hLine.symm⟩

/-- A line that defines a name begins with it. -/
theorem definitionLine_head (position : Nat) (value : String) :
    (coeffName position ++ " = " ++ value).toList.head? = some 'c' := by
  simp [coeffName]

/-- No line of a listing contains a line break. -/
theorem avoids_listingLines (circuit : Circuit p) :
    ∀ line ∈ circuit.listingLines, Avoids '\n' line := by
  intro line hLine
  rcases List.mem_append.mp hLine with hDefinition | hRow
  · obtain ⟨i, coeff, rfl⟩ := exists_of_mem_definitionLines hDefinition
    simp only [definitionLine, avoids_append]
    exact ⟨⟨avoids_coeffName (by decide) (by decide) _, by decide⟩,
      coeff.avoids_signed (by decide) (by decide)⟩
  · rcases mem_rowsLines hRow with ⟨row, gate, rfl⟩ | ⟨gate, -, hCells⟩ | rfl
    · exact avoids_headerLine _ row _ gate
    · obtain ⟨group, -, rfl⟩ := List.mem_map.mp hCells
      exact avoids_intercalate (by decide)
        (avoids_cellTokens (by decide) (by decide) gate.kind group)
    · decide

theorem rowsLines_inj [Modulus p] {publicCount publicCount' row : Nat}
    {named : OrderedSet (Residue p)} (hNamed : named.Agrees) {gates gates' : List (Gate p)}
    (hGates : ∀ gate ∈ gates, gate.Legible) (hGates' : ∀ gate ∈ gates', gate.Legible)
    (h : rowsLines publicCount named row gates = rowsLines publicCount' named row gates') :
    gates = gates' ∧
      ∀ i < gates.length, (row + i < publicCount ↔ row + i < publicCount') := by
  have hNonempty (gate : Gate p) : "" ∉ cellLines gate := by
    intro hMem
    rcases cellLines_head hMem with hHead | hHead <;> cases hHead
  induction gates generalizing row gates' with
  | nil =>
      cases gates' with
      | nil => exact ⟨rfl, by simp⟩
      | cons gate' rest' => cases h
  | cons gate rest ih =>
      cases gates' with
      | nil => cases h
      | cons gate' rest' =>
          obtain ⟨hGate, hRest⟩ := List.forall_mem_cons.mp hGates
          obtain ⟨hGate', hRest'⟩ := List.forall_mem_cons.mp hGates'
          obtain ⟨hHeader, hLines⟩ := List.cons.inj h
          -- no line of registers is empty, so the first empty line ends the row on both sides
          obtain ⟨hCells, hNext⟩ := append_cons_inj (hNonempty gate) (hNonempty gate') hLines
          obtain ⟨hPublic, hKind, hTokens⟩ :=
            headerLine_inj (coeffText_isToken named _) (coeffText_isToken named _) hHeader
          have hCoeffs := (coeffText_injective hNamed).list_map hTokens
          have hWires := cellLines_inj hKind hGate hGate' hCells
          obtain ⟨hSame, hOthers⟩ := ih hRest hRest' hNext
          refine ⟨?_, fun i hi => ?_⟩
          · obtain ⟨kind, wires, coeffs⟩ := gate
            obtain ⟨kind', wires', coeffs'⟩ := gate'
            subst hKind hWires hCoeffs hSame
            rfl
          · cases i with
            | zero => exact hPublic
            | succ i =>
                rw [← Nat.add_assoc, Nat.add_right_comm]
                exact hOthers i (Nat.lt_of_succ_lt_succ hi)

theorem definitionLine_inj [Modulus p] {position : Nat} {coeff coeff' : Residue p}
    (h : definitionLine position coeff = definitionLine position coeff') : coeff = coeff' :=
  Residue.signed_injective ((String.append_right_inj _).mp h)

theorem definitionLines_inj [Modulus p] {position : Nat} {coeffs coeffs' : List (Residue p)}
    (h : definitionLines position coeffs = definitionLines position coeffs') :
    coeffs = coeffs' := by
  apply List.ext_getElem?
  intro i
  have hAt := congrArg (·[i]?) h
  simp only [definitionLines_getElem?] at hAt
  exact Option.map_injective (fun _ _ => definitionLine_inj) hAt

/-- The definitions are the lines before the first that does not begin like a name. -/
theorem listingLines_takeWhile (circuit : Circuit p) :
    circuit.listingLines.takeWhile (fun line => line.toList.head? = some 'c') =
      definitionLines 0 (namedCoeffs circuit.gates).items.toList := by
  rw [listingLines, List.takeWhile_append_of_pos]
  · have hRows (line : String) := @rowsLines_head p circuit.publicCount
      (namedCoeffs circuit.gates) 0 circuit.gates line
    generalize rowsLines circuit.publicCount (namedCoeffs circuit.gates) 0 circuit.gates = rows
      at hRows ⊢
    cases rows with
    | nil => simp
    | cons line rest =>
        rw [List.takeWhile_cons_of_neg, List.append_nil]
        simpa using hRows line List.mem_cons_self
  · intro line hLine
    obtain ⟨i, coeff, rfl⟩ := exists_of_mem_definitionLines hLine
    exact decide_eq_true (definitionLine_head _ coeff.signed)

/-- Rows are written alike with names that stand at the same positions. -/
theorem rowsLines_congr {named named' : OrderedSet (Residue p)}
    (h : named.position? = named'.position?) (publicCount row : Nat) (gates : List (Gate p)) :
    rowsLines publicCount named row gates = rowsLines publicCount named' row gates := by
  have hText : coeffText named = coeffText named' := by
    funext coeff
    rw [coeffText, coeffText, h]
  induction gates generalizing row with
  | nil => rfl
  | cons gate rest ih => rw [rowsLines, rowsLines, hText, ih]

/-- The lines of a listing determine the gates and the number of public inputs. -/
theorem listingLines_inj [Modulus p] {circuit circuit' : Circuit p}
    (hGates : ∀ gate ∈ circuit.gates, gate.Legible)
    (hGates' : ∀ gate ∈ circuit'.gates, gate.Legible)
    (hPublic : circuit.publicCount ≤ circuit.gates.length)
    (hPublic' : circuit'.publicCount ≤ circuit'.gates.length)
    (h : circuit.listingLines = circuit'.listingLines) :
    circuit.gates = circuit'.gates ∧ circuit.publicCount = circuit'.publicCount := by
  -- the names come first, since rows can only be read once it is known what the names stand for
  have hDefinitions := congrArg
    (List.takeWhile fun line : String => line.toList.head? = some 'c') h
  rw [listingLines_takeWhile, listingLines_takeWhile] at hDefinitions
  have hPositions := (namedCoeffs_agrees circuit.gates).position?_eq
    (namedCoeffs_agrees circuit'.gates) (definitionLines_inj hDefinitions)
  rw [listingLines, listingLines, hDefinitions, rowsLines_congr hPositions] at h
  obtain ⟨hSame, hMarks⟩ := rowsLines_inj (namedCoeffs_agrees circuit'.gates) hGates hGates'
    (List.append_cancel_left h)
  refine ⟨hSame, ?_⟩
  simp only [Nat.zero_add] at hMarks
  rw [hSame] at hPublic hMarks
  -- the first row where the marks would differ has an index below both numbers of rows
  apply Nat.le_antisymm
  · by_contra hMore
    have := hMarks circuit'.publicCount (by omega)
    omega
  · by_contra hMore
    have := hMarks circuit.publicCount (by omega)
    omega

/-- The definitions are on the first lines, each of them at the position of its name. -/
theorem linesOf_item {circuit : Circuit p} {i : Nat} {coeff : Residue p}
    (h : (namedCoeffs circuit.gates).items.toList[i]? = some coeff) :
    (linesOf (terminate "\n" circuit.listingLines))[i]? = some (definitionLine i coeff) := by
  have hLine : (definitionLines 0 (namedCoeffs circuit.gates).items.toList)[i]? =
      some (definitionLine i coeff) := by
    rw [definitionLines_getElem?, h, Nat.zero_add, Option.map_some]
  rw [linesOf_terminate circuit.avoids_listingLines, listingLines, List.append_assoc,
    List.getElem?_append_left (List.getElem?_eq_some_iff.mp hLine).1, hLine]

/-- A line that begins like a name is a definition. -/
theorem exists_item_of_head {circuit : Circuit p} {i : Nat} {line : String}
    (h : (linesOf (terminate "\n" circuit.listingLines))[i]? = some line)
    (hHead : line.toList.head? = some 'c') :
    ∃ coeff, (namedCoeffs circuit.gates).items.toList[i]? = some coeff ∧
      line = definitionLine i coeff := by
  cases hItem : (namedCoeffs circuit.gates).items.toList[i]? with
  | some coeff => exact ⟨coeff, rfl, Option.some.inj (h.symm.trans (linesOf_item hItem))⟩
  | none =>
      have hBeyond : (definitionLines 0 (namedCoeffs circuit.gates).items.toList)[i]? = none := by
        rw [definitionLines_getElem?, hItem, Option.map_none]
      rw [linesOf_terminate circuit.avoids_listingLines, listingLines, List.append_assoc,
        List.getElem?_append_right (List.getElem?_eq_none_iff.mp hBeyond)] at h
      rcases List.mem_append.mp (List.mem_of_getElem? h) with hRow | hLast
      · exact absurd hHead (rowsLines_head hRow)
      · rw [List.mem_singleton.mp hLast] at hHead
        cases hHead

/-- Every coefficient of a circuit stands in its listing as it is written in its row. -/
theorem stands_coeffText [Modulus p] {circuit : Circuit p} {gate : Gate p}
    (hGate : gate ∈ circuit.gates) {coeff : Residue p} (hCoeff : coeff ∈ gate.coeffs) :
    Stands (linesOf (terminate "\n" circuit.listingLines)) coeff
      (coeffText (namedCoeffs circuit.gates) coeff) := by
  have hAgrees := namedCoeffs_agrees circuit.gates
  rcases coeffText_cases (namedCoeffs circuit.gates) coeff with ⟨hText, hAbsent⟩ |
    ⟨position, hPosition, hText⟩
  · rw [hText]
    apply Stands.numeral
    rw [Bool.eq_false_iff]
    intro hNamed
    have hMember := hAgrees.mem_iff.mp
      (mem_namedCoeffs.mpr ⟨List.mem_flatMap.mpr ⟨gate, hGate, hCoeff⟩, hNamed⟩)
    rw [hAbsent hNamed] at hMember
    cases hMember
  · have hItem := (hAgrees coeff position).mp hPosition
    have hLess := (List.getElem?_eq_some_iff.mp hItem).1
    rw [hText]
    refine .name (fun i hi => ?_) (linesOf_item hItem) (fun i value hLine => ?_) fun i hLine => ?_
    · exact ⟨_, linesOf_item (List.getElem?_eq_getElem (Nat.lt_of_le_of_lt hi hLess))⟩
    · obtain ⟨other, -, hSame⟩ := exists_item_of_head hLine (definitionLine_head _ value)
      obtain ⟨hName, -⟩ := append_mark_inj rfl (avoids_coeffName (by decide) (by decide) position)
        (avoids_coeffName (by decide) (by decide) i) hSame
      exact (coeffName_injective hName).symm
    · obtain ⟨other, hAt, hSame⟩ := exists_item_of_head hLine (definitionLine_head _ _)
      obtain rfl := definitionLine_inj hSame
      rw [← hAgrees, hPosition] at hAt
      exact (Option.some.inj hAt).symm

theorem headerLine_mem (publicCount : Nat) (named : OrderedSet (Residue p)) (first : Nat)
    {gates : List (Gate p)} {row : Nat} {gate : Gate p} (h : gates[row]? = some gate) :
    headerLine publicCount (first + row) gate.kind (gate.coeffs.map (coeffText named)) ∈
      rowsLines publicCount named first gates := by
  induction gates generalizing first row with
  | nil => cases h
  | cons head rest ih =>
      cases row with
      | zero =>
          obtain rfl := Option.some.inj h
          exact List.mem_cons_self
      | succ row =>
          have hNext := ih (first + 1) h
          rw [Nat.add_right_comm] at hNext
          exact List.mem_cons_of_mem _
            (List.mem_append_right _ (List.mem_cons_of_mem _ hNext))

theorem written_listingLines [Modulus p] (circuit : Circuit p) :
    circuit.Written (terminate "\n" circuit.listingLines) := by
  intro row gate hRow
  refine ⟨gate.coeffs.map (coeffText (namedCoeffs circuit.gates)), ?_, ?_⟩
  · have hHeader := headerLine_mem circuit.publicCount (namedCoeffs circuit.gates) 0 hRow
    rw [Nat.zero_add] at hHeader
    rw [linesOf_terminate circuit.avoids_listingLines]
    exact List.mem_append_left _ (List.mem_append_right _ hHeader)
  · rw [List.forall₂_map_right_iff, List.forall₂_same]
    intro coeff hCoeff
    exact stands_coeffText (List.mem_of_getElem? hRow) hCoeff

end Circuit

namespace Recording

/-- Listings are faithful. Every finished circuit has a listing, in which names are defined once, at
the top, by the numerals that they replace. Circuits with the same listing have the same gates and
the same number of public inputs. -/
theorem listing_faithful {p : Nat} [Modulus p] {recording recording' : Recording p}
    {table table' final final' : VariableTable p} {circuit circuit' : Circuit p}
    (hFinalize : recording.finalize table = (.ok circuit, final))
    (hFinalize' : recording'.finalize table' = (.ok circuit', final')) :
    (∃ text, circuit.listing = .ok text ∧ circuit.Written text) ∧
      (circuit.listing = circuit'.listing →
        circuit.gates = circuit'.gates ∧ circuit.publicCount = circuit'.publicCount) := by
  obtain ⟨hFits, hPublic⟩ := gates_of_finalize hFinalize
  obtain ⟨hFits', hPublic'⟩ := gates_of_finalize hFinalize'
  have hGates := fun gate hGate => Gate.legible_of_validate (hFits gate hGate)
  have hGates' := fun gate hGate => Gate.legible_of_validate (hFits' gate hGate)
  refine ⟨⟨_, Circuit.listing_eq hGates, circuit.written_listingLines⟩, fun hSame => ?_⟩
  rw [Circuit.listing_eq hGates, Circuit.listing_eq hGates'] at hSame
  have hLines := terminate_inj rfl circuit.avoids_listingLines circuit'.avoids_listingLines
    (Except.ok.inj hSame)
  exact Circuit.listingLines_inj hGates hGates' hPublic hPublic' hLines

/-- Settings and labels are not listed, and a coefficient of five characters gets a name. One of the
two circuits is over a variable that its table does not have. -/
theorem listing_faithful_named :
    let assertion (label : Option String) : Assertion 2003 :=
      ⟨label, .raw .generic [.var 0] [-1000, 0, 0, 0, 1]⟩
    let finished (settings : Settings) (table : VariableTable 2003) (label : Option String) :=
      let recorded := (start settings).add table (assertion label)
      recorded.2.1.finalize recorded.2.2
    let text := "c0 = -1000\nrow0.Generic<c0,0,0,0,1>\n.l1=v0\n\n"
    ∃ circuit circuit', (finished .standard (.allocated [] [none]) none).1 = .ok circuit ∧
      (finished Preset.debug.settings .empty (some "scaled")).1 = .ok circuit' ∧
      circuit.listing = .ok text ∧ circuit.Written text ∧
      circuit.gates = circuit'.gates ∧ circuit.publicCount = circuit'.publicCount := by
  intro assertion finished text
  have hMade : (finished .standard (.allocated [] [none]) none).1.toOption.map
      (·.listing.toOption) = some (some text) := by decide +kernel
  have hMade' : (finished Preset.debug.settings .empty (some "scaled")).1.toOption.map
      (·.listing.toOption) = some (some text) := by decide +kernel
  have hOk {ε α : Type} {result : Except ε α} {a : α} (h : result.toOption = some a) :
      result = .ok a := by
    cases result with
    | error stop => cases h
    | ok b => exact congrArg Except.ok (Option.some.inj h)
  have hPair {outcome : Except Stop (Circuit 2003) × VariableTable 2003} {circuit : Circuit 2003}
      (h : outcome.1.toOption = some circuit) : outcome = (.ok circuit, outcome.2) := by
    rw [← hOk h]
  obtain ⟨circuit, hCircuit, hText⟩ := Option.map_eq_some_iff.mp hMade
  obtain ⟨circuit', hCircuit', hText'⟩ := Option.map_eq_some_iff.mp hMade'
  obtain ⟨⟨written, hListing, hWritten⟩, hSame⟩ :=
    listing_faithful (hPair hCircuit) (hPair hCircuit')
  rw [hOk hText] at hListing hSame
  rw [← Except.ok.inj hListing] at hWritten
  exact ⟨circuit, circuit', hOk hCircuit, hOk hCircuit', hOk hText, hWritten,
    hSame (hOk hText').symm⟩

end Recording

end ArithCircuit
