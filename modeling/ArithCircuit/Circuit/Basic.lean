import ArithCircuit.Gate.Basic
import ArithCircuit.Lowering.Draft
import ArithCircuit.MessagePack
import ArithCircuit.Sha256
import ArithCircuit.Text.Hex

/-!
Finished circuits: their gates, the definitions of their auxiliary variables, and a digest of all
that a verifier depends on.
-/

namespace ArithCircuit

/-- What happened to the constraints of a circuit. -/
structure Stats where
  recorded : Nat
  unified : Nat
  rows : Nat
  sharedRows : Nat
  auxiliaries : Nat
deriving DecidableEq

/-- A circuit, lowered to gates. -/
structure Circuit (p : Nat) where
  gates : List (Gate p)
  publicCount : Nat
  /-- The number of variables allocated by the circuit. -/
  externalCount : Nat
  /-- The definitions of the auxiliary variables, in the order of their wires. -/
  aux : List (AuxDef p)
  digest : List UInt8
  stats : Stats
deriving DecidableEq

namespace Gate

variable {p : Nat}

/-- A gate as bytes: its kind by name, its wires, and its coefficients as decimal numerals. -/
def packed (gate : Gate p) : List UInt8 :=
  MessagePack.arrayHeader 3 ++ MessagePack.text gate.kind.name ++
    MessagePack.array (fun wire => MessagePack.nat wire.toNat) gate.wires.toList ++
    MessagePack.array (fun coeff => MessagePack.text coeff.toDecimal) gate.coeffs

end Gate

namespace Circuit

variable {p : Nat}

/-- The bytes that the digest covers: a mark, the number of public inputs and the gates. -/
def digestInput (gates : List (Gate p)) (publicCount : UInt32) : List UInt8 :=
  MessagePack.utf8 "snarky-circuit0" ++
    (MessagePack.arrayHeader 2 ++ MessagePack.nat publicCount.toNat ++
      MessagePack.array Gate.packed gates)

/-- The digest of gates and a number of public inputs. -/
def digestOf (gates : List (Gate p)) (publicCount : UInt32) : List UInt8 :=
  Sha256.digest (digestInput gates publicCount)

/-- The number of public inputs as a word, if it fits. -/
def publicWord (publicCount : Nat) : Except Fault UInt32 :=
  if publicCount < UInt32.size then .ok publicCount.toUInt32 else .error (.wireOverflow publicCount)

/-- The number of variables that wires can refer to. -/
def variableCount (circuit : Circuit p) : Nat := circuit.externalCount + circuit.aux.length

def digestHex (circuit : Circuit p) : String := Text.hex circuit.digest

end Circuit

end ArithCircuit
