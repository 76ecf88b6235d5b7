import ArithCircuit.Constraint
import ArithCircuit.Lowering.Draft

/-!
Lowering of single constraints. Each one becomes generic halves over operands, or the row that it
asks for. With constant folding a constraint over constants emits nothing and is decided at once.
A refusal keeps what was emitted before it.
-/

namespace ArithCircuit.Draft

variable {p : Nat} [Modulus p]

/-- The coefficients of `l * r = o`. -/
def productCoeffs : HalfCoeffs p := ⟨0, 0, -1, 1, 0⟩

/-- The coefficients of `l * r = l`. -/
def booleanCoeffs : HalfCoeffs p := ⟨-1, 0, 0, 1, 0⟩

/-- The coefficients over the signals of three operands of a half stated over the operands:
scales and constants move into the coefficients. -/
def operandCoeffs (k : HalfCoeffs p) (l r o : Operand p) : HalfCoeffs p where
  left := k.left * l.scale + k.product * l.scale * r.constant
  right := k.right * r.scale + k.product * l.constant * r.scale
  out := k.out * o.scale
  product := k.product * l.scale * r.scale
  constant := k.left * l.constant + k.right * r.constant + k.out * o.constant +
    k.product * l.constant * r.constant + k.constant

/-- Emit a half over operands. -/
def emitGeneric (draft : Draft p) (settings : Settings) (assertion : Assertion p)
    (k : HalfCoeffs p) (l r o : Operand p) : Except Fault Unit × Draft p :=
  let coeffs := operandCoeffs k l r o
  if settings.foldConstants ∧ l.signal = none ∧ r.signal = none ∧ o.signal = none then
    if coeffs.constant = 0 then (.ok (), draft)
    else (.error (assertion.contradicted coeffs.constant), draft)
  else (.ok (), draft.emit (.half ⟨l.signal, r.signal, o.signal, coeffs⟩))

/-- Emit the equality of two expressions as one half over at most three signals. -/
def emitEqual (draft : Draft p) (settings : Settings) (table : VariableTable p)
    (assertion : Assertion p) (a b : Expr p) : Except Fault Unit × Draft p :=
  let form := table.resolveAs (a.linear - b.linear) settings.normalizeOperands
  if form.terms = [] ∧ form.constant ≠ 0 then
    (.error (assertion.contradicted form.constant), draft)
  else if form.terms = [] ∧ settings.foldConstants then (.ok (), draft)
  else
    let (terms, draft) := draft.reduce 3 (signalTerms form)
    (.ok (), draft.emit (.half (.sumZero terms form.constant)))

/-- Emit one half of a generic row given directly. A half without coefficients constrains
nothing. -/
def emitRawHalf (draft : Draft p) (settings : Settings) (table : VariableTable p)
    (assertion : Assertion p) (operands : List (Expr p)) (k : HalfCoeffs p) (start : Nat) :
    Except Fault Unit × Draft p :=
  if k = .zero then (.ok (), draft)
  else
    let (l, draft) := draft.operand? settings table operands[start]?
    let (r, draft) := draft.operand? settings table operands[start + 1]?
    let (o, draft) := draft.operand? settings table operands[start + 2]?
    draft.emitGeneric settings assertion k l r o

/-- Lower one assertion. -/
def lower (draft : Draft p) (settings : Settings) (table : VariableTable p)
    (assertion : Assertion p) : Except Fault Unit × Draft p :=
  match assertion.constraint with
  | .equal a b => draft.emitEqual settings table assertion a b
  | .product a b c =>
    let (l, draft) := draft.operand settings table a
    let (r, draft) := draft.operand settings table b
    let (o, draft) := draft.operand settings table c
    draft.emitGeneric settings assertion productCoeffs l r o
  | .square a b =>
    let (l, draft) := draft.operand settings table a
    let (o, draft) := draft.operand settings table b
    draft.emitGeneric settings assertion productCoeffs l l o
  | .boolean a =>
    let (l, draft) := draft.operand settings table a
    draft.emitGeneric settings assertion booleanCoeffs l l .zero
  | .range a 0 _ => draft.emitEqual settings table assertion a 0
  | .range a bits variant =>
    let (x, draft) := draft.operand settings table a
    if settings.foldConstants ∧ x.signal = none then
      if x.constant.fitsIn bits then (.ok (), draft)
      else (.error (assertion.contradicted x.constant), draft)
    else
      let (signal, draft) := draft.materialize x
      (.ok (), draft.emit (.row variant.kind [signal] [.ofNat p bits]))
  | .raw .generic operands coeffs =>
    match draft.emitRawHalf settings table assertion operands (.ofListAt coeffs 0) 0 with
    | (.error fault, draft) => (.error fault, draft)
    | (.ok (), draft) =>
      draft.emitRawHalf settings table assertion operands (.ofListAt coeffs 5) 3
  | .raw kind operands coeffs =>
    let (signals, draft) := draft.materializeAll settings table operands
    (.ok (), draft.emit (.row kind signals coeffs))

/-- Lower assertions one after the other, up to the first refusal. -/
def lowerAll (settings : Settings) (table : VariableTable p) :
    Draft p → List (Assertion p) → Except Fault Unit × Draft p
  | draft, [] => (.ok (), draft)
  | draft, assertion :: rest =>
    match draft.lower settings table assertion with
    | (.error fault, draft) => (.error fault, draft)
    | (.ok (), draft) => lowerAll settings table draft rest

end ArithCircuit.Draft
