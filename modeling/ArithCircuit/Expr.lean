import ArithCircuit.Residue.Numeral

/-!
Affine expressions over circuit variables. Sums and scalings build an expression and never touch
a constraint system. The operators fold constants as they go: an expression built by them from
variables and constants is a constant exactly when it mentions no variable.
-/

namespace ArithCircuit

/-- An affine expression. The constructors are plain syntax; the operators `+`, `-` and
`Expr.scaleBy` simplify. -/
inductive Expr (p : Nat) where
  | const (value : Residue p)
  | var (index : Nat)
  | add (left right : Expr p)
  | scale (factor : Residue p) (body : Expr p)
deriving DecidableEq

namespace Expr

variable {p : Nat} [Modulus p]

instance : Zero (Expr p) := ⟨.const 0⟩

instance : One (Expr p) := ⟨.const 1⟩

/-- The value of an expression that is syntactically a constant. -/
def constant? : Expr p → Option (Residue p)
  | .const value => some value
  | _ => none

/-- Multiply by a scalar. A product by zero is the constant zero, nested factors merge, and no
factor one is left behind by merging. -/
def scaleBy (e : Expr p) (k : Residue p) : Expr p :=
  if k = 0 then .const k
  else if k = 1 then e
  else match e with
    | .const value => .const (value * k)
    | .scale factor body =>
      if factor * k = 1 then body else .scale (factor * k) body
    | .var index => .scale k (.var index)
    | .add left right => .scale k (.add left right)

/-- Add, dropping a constant zero on either side and folding two constants. -/
def plus (a b : Expr p) : Expr p :=
  if a = .const 0 then b
  else if b = .const 0 then a
  else match a, b with
    | .const x, .const y => .const (x + y)
    | a, b => .add a b

instance : Add (Expr p) := ⟨plus⟩

instance : Neg (Expr p) := ⟨fun e => e.scaleBy (-1)⟩

/-- Subtract: constants fold, otherwise the negated right side is added. -/
def minus (a b : Expr p) : Expr p :=
  match a, b with
  | .const x, .const y => .const (x - y)
  | a, b => a + b.scaleBy (-1)

instance : Sub (Expr p) := ⟨minus⟩

/-- The sum of scaled expressions, from left to right. -/
def combination (terms : List (Residue p × Expr p)) : Expr p :=
  terms.foldl (fun sum term => sum + term.2.scaleBy term.1) 0

/-- The sum of expressions, from left to right. -/
def sum (terms : List (Expr p)) : Expr p :=
  combination (terms.map fun e => (1, e))

/-- Evaluate from left to right. Every variable is read, also below a factor zero. -/
def eval {ε : Type} (read : Nat → Except ε (Residue p)) : Expr p → Except ε (Residue p)
  | .const value => .ok value
  | .var index => read index
  | .add left right =>
    match left.eval read with
    | .error e => .error e
    | .ok x =>
      match right.eval read with
      | .error e => .error e
      | .ok y => .ok (x + y)
  | .scale factor body =>
    match body.eval read with
    | .error e => .error e
    | .ok x => .ok (factor * x)

/-- The value under a total assignment. -/
def value (w : Nat → Residue p) : Expr p → Residue p
  | .const value => value
  | .var index => w index
  | .add left right => left.value w + right.value w
  | .scale factor body => factor * body.value w

/-- The written form: constants and factors are signed, sums are parenthesised. -/
def text : Expr p → String
  | .const value => value.signed
  | .var index => "v" ++ index.repr
  | .add left right => "(" ++ left.text ++ " + " ++ right.text ++ ")"
  | .scale factor body => factor.signed ++ "*" ++ body.text

end Expr

end ArithCircuit
