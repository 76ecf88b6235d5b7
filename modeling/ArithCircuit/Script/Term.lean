import ArithCircuit.Run.Gadget

/-!
Terms of circuit scripts. A script names expressions and refers to them later; its numerals and
names are read when a command is executed, so a mistake in them is a fault of that command and
the leftmost one counts.
-/

namespace ArithCircuit.Script

/-- Names with what they stand for. -/
structure Bindings (α : Type) where
  entries : List (String × α)

namespace Bindings

variable {α : Type}

def empty : Bindings α := ⟨[]⟩

/-- Let a name stand for something from now on. -/
def insert (bindings : Bindings α) (name : String) (a : α) : Bindings α :=
  ⟨(name, a) :: bindings.entries.filter fun entry => entry.1 != name⟩

/-- What a name stands for. -/
def find (bindings : Bindings α) (name : String) : Except Fault α :=
  match bindings.entries.find? fun entry => entry.1 == name with
  | some entry => .ok entry.2
  | none => .error (.unknownName name)

end Bindings

/-- A residue as a script writes it. -/
inductive Literal where
  | int (n : Int)
  /-- A numeral after an optional minus sign. -/
  | text (numeral : String)

namespace Literal

variable {p : Nat} [Modulus p]

def value : Literal → Except Fault (Residue p)
  | .int n => .ok (.ofInt p n)
  | .text numeral =>
    match numeral.toList with
    | '-' :: digits =>
      match Residue.ofNumeral (String.ofList digits) with
      | .ok x => .ok (-x)
      | .error error => .error (.ofNumeral error)
    | _ => (Residue.ofNumeral numeral).mapError .ofNumeral

end Literal

/-- An expression as a script writes it. -/
inductive Term where
  | named (name : String)
  | const (value : Literal)
  | zero
  | one
  | var (index : Nat)
  /-- The sum as it stands, without simplification. -/
  | bareAdd (left right : Term)
  /-- The multiple as it stands, without simplification. -/
  | bareScale (factor : Literal) (body : Term)
  | add (left right : Term)
  | sub (left right : Term)
  | neg (body : Term)
  | scale (factor : Literal) (body : Term)
  | sum (terms : List Term)
  | combination (terms : List (Literal × Term))

namespace Term

variable {p : Nat} [Modulus p]

mutual

/-- The expression that a term denotes. -/
def value (names : Bindings (Expr p)) : Term → Except Fault (Expr p)
  | .named name => names.find name
  | .const value => value.value.map .const
  | .zero => .ok 0
  | .one => .ok 1
  | .var index => .ok (.var index)
  | .bareAdd left right => do
    let a ← left.value names
    let b ← right.value names
    return .add a b
  | .bareScale factor body => do
    let k ← factor.value
    let a ← body.value names
    return .scale k a
  | .add left right => do
    let a ← left.value names
    let b ← right.value names
    return a + b
  | .sub left right => do
    let a ← left.value names
    let b ← right.value names
    return a - b
  | .neg body => do
    let a ← body.value names
    return -a
  | .scale factor body => do
    let k ← factor.value
    let a ← body.value names
    return a.scaleBy k
  | .sum terms => do
    let es ← values names terms
    return Expr.sum es
  | .combination terms => do
    let es ← scaledValues names terms
    return Expr.combination es

/-- The expressions that terms denote. -/
def values (names : Bindings (Expr p)) : List Term → Except Fault (List (Expr p))
  | [] => .ok []
  | term :: rest => do
    let e ← term.value names
    let es ← values names rest
    return e :: es

/-- The scaled expressions that scaled terms denote. -/
def scaledValues (names : Bindings (Expr p)) :
    List (Literal × Term) → Except Fault (List (Residue p × Expr p))
  | [] => .ok []
  | (factor, term) :: rest => do
    let k ← factor.value
    let e ← term.value names
    let es ← scaledValues names rest
    return (k, e) :: es

end

end Term

/-- A computation of a value, carried out only where values are computed. -/
inductive Computation where
  | const (value : Literal)
  | read (term : Term)
  /-- One inside a prover block, zero outside. -/
  | inBlock
  | add (left right : Computation)
  | sub (left right : Computation)
  | mul (left right : Computation)
  /-- Give up. -/
  | abort

namespace Computation

variable {p : Nat} [Modulus p]

/-- Carry out a computation, from left to right. -/
def value (names : Bindings (Expr p)) (env : Env p) : Computation → Except Stop (Residue p)
  | .const value => value.value.mapError .fault
  | .read term => do
    let e ← (term.value names).mapError .fault
    (env.read e).mapError .fault
  | .inBlock => .ok (if env.inBlock then 1 else 0)
  | .add left right => do
    let x ← left.value names env
    let y ← right.value names env
    return x + y
  | .sub left right => do
    let x ← left.value names env
    let y ← right.value names env
    return x - y
  | .mul left right => do
    let x ← left.value names env
    let y ← right.value names env
    return x * y
  | .abort => .error .abort

end Computation

/-- A computation of a generic half as a script writes it. -/
inductive ArithmeticTerm where
  | add (left right output : Option Literal)
  | mul (output product : Option Literal)
  | const (value : Literal)
  | publicInput

namespace ArithmeticTerm

variable {p : Nat} [Modulus p]

/-- A coefficient that may be missing. -/
def optional : Option Literal → Except Fault (Option (Residue p))
  | none => .ok none
  | some literal => literal.value.map some

def value : ArithmeticTerm → Except Fault (Arithmetic p)
  | .add left right output => do
    return .add (← optional left) (← optional right) (← optional output)
  | .mul output product => do
    return .mul (← optional output) (← optional product)
  | .const value => value.value.map .const
  | .publicInput => .ok .publicInput

end ArithmeticTerm

/-- A constraint as a script writes it. -/
inductive Statement where
  | equal (a b : Term)
  | product (a b c : Term)
  | square (a b : Term)
  | boolean (a : Term)
  | range (a : Term) (bits : Nat) (variant : RangeVariant)
  | raw (kind : String) (operands : List Term) (coeffs : List Literal)
  | generic (gate : ArithmeticTerm) (l r o : Term)

/-- The kind with a given name. -/
def kindNamed (name : String) : Except Fault GateKind :=
  match GateKind.ofName? name with
  | some kind => .ok kind
  | none => .error (.unknownVariant name)

namespace Statement

variable {p : Nat} [Modulus p]

/-- The constraint that a statement denotes. -/
def value (names : Bindings (Expr p)) : Statement → Except Fault (Constraint p)
  | .equal a b => do
    return .equal (← a.value names) (← b.value names)
  | .product a b c => do
    return .product (← a.value names) (← b.value names) (← c.value names)
  | .square a b => do
    return .square (← a.value names) (← b.value names)
  | .boolean a => do
    return .boolean (← a.value names)
  | .range a bits variant => do
    return .range (← a.value names) bits variant
  | .raw kind operands coeffs => do
    let kind ← kindNamed kind
    let operands ← Term.values names operands
    let coeffs ← coeffs.mapM Literal.value
    return .raw kind operands coeffs
  | .generic gate l r o => do
    let gate ← gate.value
    let l ← l.value names
    let r ← r.value names
    let o ← o.value names
    return .raw .generic [l, r, o] gate.coeffs.toList

end Statement

/-- Settings as a script asks for them. -/
inductive SettingsTerm where
  | standard
  | preset (name : String)
  | given (settings : Settings)

/-- The settings that are asked for. -/
def SettingsTerm.value : SettingsTerm → Except Fault Settings
  | .standard => .ok .standard
  | .preset name =>
    match Preset.ofName? name with
    | some found => .ok found.settings
    | none => .error (.unknownVariant name)
  | .given settings => .ok settings

end ArithCircuit.Script
