import ArithCircuit.Expr
import ArithCircuit.Fault
import ArithCircuit.Gate.Generic

/-!
Constraints as a circuit states them, before anything is lowered to gates: how they are checked
against values and how they are written in messages.
-/

namespace ArithCircuit

/-- Which gates show that a value is in range. -/
inductive RangeVariant where
  | single
  | compact
  | lookup
deriving DecidableEq

namespace RangeVariant

def name : RangeVariant → String
  | single => "Single"
  | compact => "Compact"
  | lookup => "Lookup"

def kind : RangeVariant → GateKind
  | single => .rangeCheck0
  | compact => .rangeCheck1
  | lookup => .lookup

end RangeVariant

/-- A constraint over affine expressions. -/
inductive Constraint (p : Nat) where
  | equal (a b : Expr p)
  /-- `a * b = c` -/
  | product (a b c : Expr p)
  /-- `a * a = b` -/
  | square (a b : Expr p)
  /-- `a` is zero or one. -/
  | boolean (a : Expr p)
  /-- The representative of `a` is below `2 ^ bits`. -/
  | range (a : Expr p) (bits : Nat) (variant : RangeVariant)
  /-- A row given directly, one operand for each register. -/
  | raw (kind : GateKind) (operands : List (Expr p)) (coeffs : List (Residue p))

namespace Constraint

variable {p : Nat} [Modulus p]

/-- Refuse a row with more operands or coefficients than its kind holds. Other constraints take
as many rows as they need. -/
def checkArity : Constraint p → Except Fault Unit
  | .raw kind operands coeffs => kind.checkArity operands.length coeffs.length
  | _ => .ok ()

/-- The written form. -/
def text : Constraint p → String
  | .equal a b => a.text ++ " = " ++ b.text
  | .product a b c => a.text ++ " * " ++ b.text ++ " = " ++ c.text
  | .square a b => a.text ++ "^2 = " ++ b.text
  | .boolean a => a.text ++ " is boolean"
  | .range a bits variant => a.text ++ " < 2^" ++ bits.repr ++ " (" ++ variant.name ++ ")"
  | .raw kind operands coeffs =>
    kind.name ++ "<" ++ ",".intercalate (coeffs.map Residue.signed) ++ ">(" ++
      ", ".intercalate (operands.map Expr.text) ++ ")"

/-- The fault of a constraint that the given values do not satisfy. -/
def refuted (c : Constraint p) (label : Option String) (values : List (Residue p)) : Fault :=
  .unsatisfied label c.text (values.map Residue.signed)

/-- Check the constraint on the values that `read` gives to its operands, which are read from
left to right. A generic row given directly is checked on its two halves, where what is missing is
zero; rows of other kinds have no equation and pass unread. -/
def check (c : Constraint p) (label : Option String)
    (read : Expr p → Except Fault (Residue p)) : Except Fault Unit :=
  match c with
  | .equal a b => do
    let x ← read a
    let y ← read b
    if x = y then .ok () else .error (c.refuted label [x, y])
  | .product a b o => do
    let x ← read a
    let y ← read b
    let z ← read o
    if x * y = z then .ok () else .error (c.refuted label [x, y, z])
  | .square a b => do
    let x ← read a
    let y ← read b
    if x * x = y then .ok () else .error (c.refuted label [x, y])
  | .boolean a => do
    let x ← read a
    if x = 0 ∨ x = 1 then .ok () else .error (c.refuted label [x])
  | .range a bits _ => do
    let x ← read a
    if x.fitsIn bits then .ok () else .error (c.refuted label [x])
  | .raw .generic operands coeffs => do
    let given ← operands.mapM read
    let value (register : Nat) : Residue p := given.getD register 0
    if (HalfCoeffs.ofListAt coeffs 0).residual (value 0) (value 1) (value 2) = 0 ∧
        (HalfCoeffs.ofListAt coeffs 5).residual (value 3) (value 4) (value 5) = 0 then .ok ()
    else .error (c.refuted label ((List.range 6).map value))
  | .raw _ _ _ => .ok ()

end Constraint

/-- A constraint with the label that messages about it carry. -/
structure Assertion (p : Nat) where
  label : Option String
  constraint : Constraint p

namespace Assertion

variable {p : Nat} [Modulus p]

/-- The fault of an assertion that folds to a nonzero constant. -/
def contradicted (assertion : Assertion p) (residue : Residue p) : Fault :=
  assertion.constraint.refuted assertion.label [residue]

end Assertion

end ArithCircuit
