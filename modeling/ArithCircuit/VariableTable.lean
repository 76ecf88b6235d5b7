import ArithCircuit.Fault
import ArithCircuit.Forest
import ArithCircuit.LinearForm
import ArithCircuit.Settings

/-!
The variables of a circuit: their values as far as they are known, their classes, and how many of
them are public. Public inputs come first and always represent their own class. Unification
absorbs an equation into the classes when it concerns at most two of them.
-/

namespace ArithCircuit

/-- The variables allocated so far. -/
structure VariableTable (p : Nat) where
  values : Array (Option (Residue p))
  classes : Forest p
  publicCount : Nat

namespace VariableTable

variable {p : Nat} [Modulus p]

/-- No variables. -/
def empty : VariableTable p := ⟨#[], .empty, 0⟩

def size (table : VariableTable p) : Nat := table.values.size

/-- Add a variable; its index is the size of the table before. -/
def alloc : VariableTable p → Option (Residue p) → VariableTable p
  | ⟨values, classes, publicCount⟩, value => ⟨values.push value, classes.push, publicCount⟩

/-- Add a public input. Public inputs precede all other variables. -/
def allocPublic : VariableTable p → Option (Residue p) → VariableTable p
  | ⟨values, classes, publicCount⟩, value => ⟨values.push value, classes.push, publicCount + 1⟩

def isPublic (table : VariableTable p) (index : Nat) : Bool := index < table.publicCount

/-- The value of a variable. -/
def value (table : VariableTable p) (index : Nat) : Except Fault (Residue p) :=
  match table.values[index]? with
  | some (some value) => .ok value
  | _ => .error (.missingValue index)

/-- What a variable is worth in terms of its class. A variable outside the table stands for
itself. -/
def rep (table : VariableTable p) (index : Nat) : Rep p :=
  (table.classes.find index).getD (.ofVar index)

/-- Put the representatives of the terms `terms`, times their coefficients, in front of a form. -/
def resolveBefore (table : VariableTable p) (terms : List (Residue p × Nat))
    (rest : LinearForm p) : LinearForm p :=
  terms.foldr
    (fun term form =>
      match table.rep term.2 with
      | .var index coeff offset =>
        ⟨(term.1 * coeff, index) :: form.terms, form.constant + term.1 * offset⟩
      | .const value => ⟨form.terms, form.constant + term.1 * value⟩)
    rest

/-- Write a form in terms of the representatives of its variables. -/
def resolve (table : VariableTable p) (form : LinearForm p) : LinearForm p :=
  table.resolveBefore form.terms (.ofConstant form.constant)

/-- Write a form in terms of representatives, in normal shape if asked to. -/
def resolveAs (table : VariableTable p) (form : LinearForm p) (normalize : Bool) :
    LinearForm p :=
  if normalize then (table.resolve form).normalize else table.resolve form

/-- Shorten the paths of the variables of a form to their representatives. -/
def compress (table : VariableTable p) (form : LinearForm p) : VariableTable p :=
  { table with
    classes := form.terms.foldl (fun classes term => classes.compress term.2) table.classes }

/-- Pin the class of a free representative. The call must be within the rules of the classes. -/
def pin (table : VariableTable p) (root : Nat) (value : Residue p) :
    Except Stop (VariableTable p) :=
  match table.classes.pin? root value with
  | some classes => .ok { table with classes := classes }
  | none => .error .abort

/-- Link a free representative to an older one. The call must be within the rules of the
classes. -/
def link (table : VariableTable p) (child parent : Nat) (coeff offset : Residue p) :
    Except Stop (VariableTable p) :=
  match table.classes.link? child parent coeff offset with
  | some classes => .ok { table with classes := classes }
  | none => .error .abort

/-- Try to absorb the equation `form = 0` into the classes. The result is the table in which the
equation holds by itself, or nothing when the policy or the number of variables leaves it to be
constrained. Public inputs are never eliminated. An equation that no assignment satisfies is
refused. -/
def unify (table : VariableTable p) (form : LinearForm p) (policy : Unification)
    (label : Option String) : Except Stop (Option (VariableTable p)) :=
  if policy = .off then .ok none
  else
    let resolved := (table.resolve form).normalize
    match resolved.terms with
    | [] =>
      if resolved.constant = 0 then .ok (some (table.compress form))
      else .error (.fault (.unsatisfied label (resolved.constant.signed ++ " = 0") []))
    | [(c, u)] =>
      if table.isPublic u ∨ (policy = .aliases ∧ ¬(c = 1 ∨ -c = 1)) then .ok none
      else
        ((table.compress form).pin u (-resolved.constant / c)).map some
    | [(cu, u), (cv, v)] =>
      if table.isPublic v ∨ (policy = .aliases ∧ ¬(cu + cv = 0 ∧ resolved.constant = 0)) then
        .ok none
      else
        ((table.compress form).link v u (-cu / cv) (-resolved.constant / cv)).map some
    | _ => .ok none

end VariableTable

end ArithCircuit
