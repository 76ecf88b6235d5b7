import ArithCircuit.Circuit.Basic
import ArithCircuit.Json.Reader

/-!
Circuits as JSON documents for interchange: the gates, the number of public inputs and the digest.
Coefficients are written as decimal numerals and read in either radix. A record may also be read
as the array of its fields in order, and members that are not known are passed over.
-/

namespace ArithCircuit

/-- What a document says about a circuit. -/
structure Document (p : Nat) where
  gates : List (Gate p)
  publicCount : UInt32
  /-- The digest in hexadecimal digits. -/
  digest : String
deriving DecidableEq

namespace Json

/-- The fields of a record with the given names, in their order. Every name occurs once; a record
given as an array has no other items. -/
def fields? (names : List String) : Json → Option (List Json)
  | .array items => if items.length = names.length then some items else none
  | .object members =>
    match members.mapM fun member => unescape? member.1 with
    | none => none
    | some keys =>
      names.mapM fun name =>
        match (keys.zip members).filter fun entry => entry.1 = name.toList with
        | [(_, (_, item))] => some item
        | _ => none
  | _ => none

/-- A natural number below `2 ^ 32`. -/
def word? (json : Json) : Option UInt32 :=
  match json.nat? with
  | some n => if n < UInt32.size then some n.toUInt32 else none
  | none => none

end Json

namespace GateKind

/-- A kind is written by its name, and read also as an object whose only member has that name
and is null. -/
def ofJson? : Json → Option GateKind
  | .object [(key, .null)] => (Json.unescape? key).bind fun name => ofName? (String.ofList name)
  | json => json.text?.bind ofName?

end GateKind

namespace Gate

variable {p : Nat}

def toJson (gate : Gate p) : Json :=
  .record
    [("kind", .ofText gate.kind.name),
      ("wires", .array (gate.wires.toList.map fun wire => .ofNat wire.toNat)),
      ("coeffs", .array (gate.coeffs.map fun coeff => .ofText coeff.toDecimal))]

/-- The wires of a row, one for each register. -/
def wiresOfJson? (json : Json) : Option (Vector UInt32 rowWidth) :=
  match json.items?.bind fun items => items.mapM Json.word? with
  | some wires => if wires.length = rowWidth then some (padWires wires) else none
  | none => none

/-- A coefficient from its numeral. -/
def coeffOfJson? (json : Json) : Option (Residue p) :=
  json.text?.bind fun text => (Residue.ofNumeral text).toOption

def ofJson? (json : Json) : Option (Gate p) :=
  match json.fields? ["kind", "wires", "coeffs"] with
  | some [kind, wires, coeffs] => do
    let kind ← GateKind.ofJson? kind
    let wires ← wiresOfJson? wires
    let items ← coeffs.items?
    let coeffs ← items.mapM coeffOfJson?
    return ⟨kind, wires, coeffs⟩
  | _ => none

end Gate

namespace Document

variable {p : Nat}

def toJson (document : Document p) : Json :=
  .record
    [("gates", .array (document.gates.map Gate.toJson)),
      ("public_input_size", .ofNat document.publicCount.toNat),
      ("digest", .ofText document.digest)]

def ofJson? (json : Json) : Option (Document p) :=
  match json.fields? ["gates", "public_input_size", "digest"] with
  | some [gates, publicCount, digest] => do
    let items ← gates.items?
    let gates ← items.mapM Gate.ofJson?
    let publicCount ← publicCount.word?
    let digest ← digest.text?
    return ⟨gates, publicCount, digest⟩
  | _ => none

/-- The compact text of a document. -/
def text (document : Document p) : String := document.toJson.text

/-- Check that every gate fits its kind, in order, and then that the digest is that of the
gates. -/
def validate (document : Document p) : Except Fault Unit := do
  document.gates.forM Gate.validate
  let computed := Text.hex (Circuit.digestOf document.gates document.publicCount)
  if computed = document.digest then .ok ()
  else .error (.digestMismatch document.digest computed)

/-- Read a document and check it. -/
def ofText (text : String) : Except Fault (Document p) :=
  match (Json.ofString? text).bind ofJson? with
  | none => .error (.malformed "not a constraint system document")
  | some document => document.validate.map fun _ => document

end Document

namespace Circuit

variable {p : Nat}

/-- The document of a circuit. -/
def document (circuit : Circuit p) : Except Fault (Document p) :=
  (publicWord circuit.publicCount).map fun publicCount =>
    ⟨circuit.gates, publicCount, circuit.digestHex⟩

end Circuit

end ArithCircuit
