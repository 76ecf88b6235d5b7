import ArithCircuit.Constraint
import ArithCircuit.VariableTable

/-!
The constraints of a circuit while they are recorded. An equality that the classes of variables
can absorb is not kept, and with constant folding a product by a constant counts as an equality.
Classes grow while a circuit is recorded, so what waits is offered to them once more at the end.
-/

namespace ArithCircuit

/-- The constraints recorded so far. -/
structure Recording (p : Nat) where
  settings : Settings
  /-- What is still to be lowered, in the order of recording. -/
  waiting : Array (Assertion p)
  /-- The number of constraints that were offered. -/
  recorded : Nat
  /-- The number of equalities that the classes absorbed. -/
  unified : Nat

/-- What becomes of an assertion that is offered to the classes. -/
inductive Absorption (p : Nat) where
  /-- The classes of the new table imply it. -/
  | absorbed (table : VariableTable p)
  /-- It is still needed, perhaps in a simpler form. -/
  | kept (assertion : Assertion p)

namespace VariableTable

variable {p : Nat} [Modulus p]

/-- The value of an expression that the classes make constant. -/
def constantOf? (table : VariableTable p) (e : Expr p) : Option (Residue p) :=
  (table.resolve e.linear.normalize).normalize.constant?

/-- Turn a product by a known constant into an equality. -/
def linearize (table : VariableTable p) : Constraint p → Constraint p
  | .product a b c =>
    match table.constantOf? a, table.constantOf? b with
    | some k, _ => .equal (b.scaleBy k) c
    | none, some k => .equal (a.scaleBy k) c
    | none, none => .product a b c
  | .square a b =>
    match table.constantOf? a with
    | some k => .equal (.const (k * k)) b
    | none => .square a b
  | c => c

/-- Offer an assertion to the classes. -/
def absorb (table : VariableTable p) (settings : Settings) (assertion : Assertion p) :
    Except Stop (Absorption p) :=
  let constraint :=
    if settings.foldConstants then table.linearize assertion.constraint
    else assertion.constraint
  match constraint with
  | .equal a b =>
    match table.unify (a.linear - b.linear) settings.unification assertion.label with
    | .error stop => .error stop
    | .ok (some table) => .ok (.absorbed table)
    | .ok none => .ok (.kept ⟨assertion.label, constraint⟩)
  | _ => .ok (.kept ⟨assertion.label, constraint⟩)

/-- Offer assertions to the classes one after the other. The result is what is still needed and
how many were absorbed; the table keeps what was absorbed before a refusal. -/
def absorbAll (settings : Settings) :
    VariableTable p → List (Assertion p) →
      Except Stop (List (Assertion p) × Nat) × VariableTable p
  | table, [] => (.ok ([], 0), table)
  | table, assertion :: rest =>
    match table.absorb settings assertion with
    | .error stop => (.error stop, table)
    | .ok (.absorbed next) =>
      let (result, final) := absorbAll settings next rest
      (result.map fun settled => (settled.1, settled.2 + 1), final)
    | .ok (.kept assertion) =>
      let (result, final) := absorbAll settings table rest
      (result.map fun settled => (assertion :: settled.1, settled.2), final)

end VariableTable

namespace Recording

variable {p : Nat} [Modulus p]

/-- Nothing recorded yet. -/
def start (settings : Settings) : Recording p := ⟨settings, #[], 0, 0⟩

/-- Record an assertion. A row that does not fit its kind is not counted; an equality that
contradicts the classes is counted and dropped. -/
def add : Recording p → VariableTable p → Assertion p →
    Except Stop Unit × Recording p × VariableTable p
  | ⟨settings, waiting, recorded, unified⟩, table, assertion =>
    match assertion.constraint.checkArity with
    | .error fault => (.error (.fault fault), ⟨settings, waiting, recorded, unified⟩, table)
    | .ok () =>
      match table.absorb settings assertion with
      | .error stop => (.error stop, ⟨settings, waiting, recorded + 1, unified⟩, table)
      | .ok (.absorbed next) => (.ok (), ⟨settings, waiting, recorded + 1, unified + 1⟩, next)
      | .ok (.kept assertion) =>
        (.ok (), ⟨settings, waiting.push assertion, recorded + 1, unified⟩, table)

end Recording

end ArithCircuit
