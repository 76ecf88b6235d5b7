import ArithCircuit.Expr

/-!
Linear forms: scaled variables and a constant, the shape to which every operand of a constraint
is reduced. A form in normal shape lists each variable at most once, in increasing order, with a
nonzero coefficient.
-/

namespace ArithCircuit

/-- The sum of the terms, each a coefficient and a variable, and the constant. -/
structure LinearForm (p : Nat) where
  terms : List (Residue p × Nat)
  constant : Residue p
deriving DecidableEq

namespace LinearForm

variable {p : Nat} [Modulus p]

/-- The form without variables. -/
def ofConstant (constant : Residue p) : LinearForm p := ⟨[], constant⟩

/-- Add a term to a list sorted by variable, merging it with a term of the same variable. -/
def insertTerm (term : Residue p × Nat) : List (Residue p × Nat) → List (Residue p × Nat)
  | [] => [term]
  | head :: rest =>
    if term.2 < head.2 then term :: head :: rest
    else if term.2 = head.2 then (term.1 + head.1, head.2) :: rest
    else head :: insertTerm term rest

/-- Merge the terms of each variable, drop those that cancel, and sort by variable. -/
def normalize (form : LinearForm p) : LinearForm p :=
  ⟨(form.terms.foldr insertTerm []).filter (fun term => term.1 ≠ 0), form.constant⟩

/-- The constant of a form without terms. -/
def constant? (form : LinearForm p) : Option (Residue p) :=
  if form.terms = [] then some form.constant else none

/-- Multiply every coefficient and the constant. -/
def scaleBy (form : LinearForm p) (k : Residue p) : LinearForm p :=
  ⟨form.terms.map (fun term => (term.1 * k, term.2)), form.constant * k⟩

/-- Subtract, listing the terms of both sides one after the other. -/
def minus (a b : LinearForm p) : LinearForm p :=
  ⟨a.terms ++ b.terms.map (fun term => (-term.1, term.2)), a.constant - b.constant⟩

instance : Sub (LinearForm p) := ⟨minus⟩

/-- The value under a total assignment. -/
def value (w : Nat → Residue p) (form : LinearForm p) : Residue p :=
  form.terms.foldr (fun term sum => term.1 * w term.2 + sum) form.constant

end LinearForm

namespace Expr

variable {p : Nat} [Modulus p]

/-- The terms of the expression times `k`, from left to right, before the terms `rest`. -/
def termsBefore (k : Residue p) : Expr p → List (Residue p × Nat) → List (Residue p × Nat)
  | .const _, rest => rest
  | .var index, rest => (k, index) :: rest
  | .add left right, rest => left.termsBefore k (right.termsBefore k rest)
  | .scale factor body, rest => body.termsBefore (k * factor) rest

/-- The constant part of the expression times `k`. -/
def constantPart (k : Residue p) : Expr p → Residue p
  | .const value => k * value
  | .var _ => 0
  | .add left right => left.constantPart k + right.constantPart k
  | .scale factor body => body.constantPart (k * factor)

/-- The linear form of an expression. Repeated variables stay separate terms, in the order in
which the expression mentions them. -/
def linear (e : Expr p) : LinearForm p :=
  ⟨e.termsBefore 1 [], e.constantPart 1⟩

end Expr

end ArithCircuit
