import ArithCircuit.Residue.Basic

/-!
The generic gate. A half of a generic row relates three registers `l`, `r`, `o` by
`left * l + right * r + out * o + product * l * r + constant = 0`; a row holds one half or two.
-/

namespace ArithCircuit

/-- The coefficients of one half of a generic row. -/
structure HalfCoeffs (p : Nat) where
  left : Residue p
  right : Residue p
  out : Residue p
  product : Residue p
  constant : Residue p
deriving DecidableEq

namespace HalfCoeffs

variable {p : Nat} [Modulus p]

/-- The coefficients that constrain nothing. -/
def zero : HalfCoeffs p := ⟨0, 0, 0, 0, 0⟩

def toList (coeffs : HalfCoeffs p) : List (Residue p) :=
  [coeffs.left, coeffs.right, coeffs.out, coeffs.product, coeffs.constant]

/-- The first five of a list of coefficients. -/
def ofList? : List (Residue p) → Option (HalfCoeffs p)
  | left :: right :: out :: product :: constant :: _ =>
    some ⟨left, right, out, product, constant⟩
  | _ => none

/-- Five coefficients from a position on; those beyond the end are zero. -/
def ofListAt (coeffs : List (Residue p)) (start : Nat) : HalfCoeffs p :=
  ⟨coeffs.getD start 0, coeffs.getD (start + 1) 0, coeffs.getD (start + 2) 0,
    coeffs.getD (start + 3) 0, coeffs.getD (start + 4) 0⟩

/-- What the half computes from its registers; it holds when this is zero. -/
def residual (coeffs : HalfCoeffs p) (l r o : Residue p) : Residue p :=
  coeffs.left * l + coeffs.right * r + coeffs.out * o + coeffs.product * l * r + coeffs.constant

end HalfCoeffs

/-- The usual computations of a half. A coefficient that is not given is one, or minus one for
an output. -/
inductive Arithmetic (p : Nat) where
  | add (left right output : Option (Residue p))
  | mul (output product : Option (Residue p))
  | const (value : Residue p)
  | publicInput

/-- The coefficients of a computation. -/
def Arithmetic.coeffs {p : Nat} [Modulus p] : Arithmetic p → HalfCoeffs p
  | .add left right output => ⟨left.getD 1, right.getD 1, output.getD (-1), 0, 0⟩
  | .mul output product => ⟨0, 0, output.getD (-1), product.getD 1, 0⟩
  | .const value => ⟨1, 0, 0, 0, -value⟩
  | .publicInput => ⟨1, 0, 0, 0, 0⟩

end ArithCircuit
