import ArithCircuit.Script.Session

/-!
Commands, the steps of a script that do one thing.
-/

namespace ArithCircuit.Script

/-- What becomes of an expression that a command produces. -/
structure Target where
  name : Option String
  quiet : Bool

/-- What becomes of several expressions. -/
structure Targets where
  names : List String
  quiet : Bool

/-- What becomes of a circuit, a witness or rows. -/
structure Keep where
  name : Option String
  brief : Bool

/-- A change to one cell. -/
structure Edit where
  row : Nat
  register : Nat
  value : Literal

/-- A step that does one thing. -/
inductive Command where
  | allocate (target : Target)
  | compute (value : Computation) (target : Target)
  | introduceOne (value : Option Computation) (target : Target)
  | declarePublic (values : Option (List Literal)) (count : Nat) (targets : Targets)
  | introduce (count : Nat) (values : List Computation) (targets : Targets)
  | define (term : Term) (target : Target)
  | read (term : Term)
  | proverBlock (values : List Computation)
  | mul (a b : Term) (label : Option String) (target : Target)
  | div (a b : Term) (label : Option String) (target : Target)
  | square (a : Term) (label : Option String) (target : Target)
  | inv (a : Term) (label : Option String) (target : Target)
  | equal (a b : Term) (target : Target)
  | select (condition yes no : Term) (target : Target)
  | constrain (statement : Statement) (label : Option String)
  | state
  | setChecking (checking : Bool)
  | setSettings (settings : SettingsTerm)
  | reset
  | snapshot (keep : Keep)
  | compile (keep : Keep)
  | makeWitness (values : List (Option Literal)) (publicCount : Nat) (keep : Keep)
  | assign (circuit witness : String) (keep : Keep)
  | verify (circuit rows : String) (edits : List Edit) (keepRows : Option Nat)
      (inputs : List Literal)
  | same (a b : String)

namespace Edit

variable {p : Nat} [Modulus p]

/-- Change a cell, which must exist. -/
def apply (rows : List (Cells p)) (edit : Edit) : Except Stop (List (Cells p)) := do
  let value ← edit.value.value.mapError .fault
  match rows[edit.row]? with
  | none => .error .abort
  | some cells =>
    if h : edit.register < rowWidth then .ok (rows.set edit.row (cells.set edit.register value h))
    else .error .abort

end Edit

namespace Command

variable {p : Nat} [Modulus p]

/-- The expression of a term. -/
def term (term : Term) : Interaction p (Expr p) :=
  Stateful.lookup fun session => term.value session.exprs

/-- Name an expression and answer it. -/
def produce (target : Target) (e : Expr p) : Interaction p (Answer p) := do
  Interaction.keep target.name fun session name =>
    { session with exprs := session.exprs.insert name e }
  return if target.quiet then .nothing else .expr e

/-- Name expressions and answer them. -/
def produceAll (targets : Targets) (es : List (Expr p)) : Interaction p (Answer p) := do
  Interaction.keepAll targets.names es
  return if targets.quiet then .nothing else .exprs es

/-- Introduce a variable for a computation. -/
def computed (value : Computation) : Interaction p (Expr p) := do
  let names ← Stateful.inspect fun session => .ok session.exprs
  Interaction.act (Action.compute fun env => value.value names env)

/-- Name a witness and answer it. -/
def produceWitness (keep : Keep) (witness : Witness p) : Interaction p (Answer p) := do
  Interaction.keep keep.name fun session name =>
    { session with witnesses := session.witnesses.insert name witness }
  return .witness witness keep.brief

/-- Carry out a command. -/
def execute : Command → Interaction p (Answer p)
  | .allocate target => do
    let e ← Interaction.act Action.allocate
    produce target e
  | .compute value target => do
    let e ← computed value
    produce target e
  | .introduceOne none target => do
    let e ← Interaction.act Action.allocate
    produce target e
  | .introduceOne (some value) target => do
    let e ← computed value
    produce target e
  | .declarePublic values count targets => do
    let values ← Stateful.lookup fun _ =>
      match values with
      | none => .ok none
      | some literals => (literals.mapM Literal.value).map some
    let es ← Interaction.act (Action.declarePublic count values)
    produceAll targets es
  | .introduce count values targets => do
    let names ← Stateful.inspect fun session => .ok session.exprs
    let es ← Interaction.act
      (Action.introduce count fun env => values.mapM fun value => value.value names env)
    produceAll targets es
  | .define e target => do
    let e ← term e
    produce target e
  | .read e => do
    let e ← term e
    let x ← Stateful.lookup fun session => session.state.read e
    return .value x
  | .proverBlock values => do
    let names ← Stateful.inspect fun session => .ok session.exprs
    let xs ← Interaction.act
      (Action.proverBlock fun env => values.mapM fun value => value.value names env)
    return .values (xs.getD [])
  | .mul a b label target => do
    let a ← term a
    let b ← term b
    let e ← Interaction.act (Gadget.mul a b label)
    produce target e
  | .div a b label target => do
    let a ← term a
    let b ← term b
    let e ← Interaction.act (Gadget.div a b label)
    produce target e
  | .square a label target => do
    let a ← term a
    let e ← Interaction.act (Gadget.square a label)
    produce target e
  | .inv a label target => do
    let a ← term a
    let e ← Interaction.act (Gadget.inv a label)
    produce target e
  | .equal a b target => do
    let a ← term a
    let b ← term b
    let e ← Interaction.act (Gadget.equal a b)
    produce target e
  | .select condition yes no target => do
    let condition ← term condition
    let yes ← term yes
    let no ← term no
    let e ← Interaction.act (Gadget.select condition yes no)
    produce target e
  | .constrain statement label => do
    let constraint ← Stateful.lookup fun session => statement.value session.exprs
    Interaction.act (Action.constrain constraint label)
    return .done
  | .state => Stateful.inspect fun session => .ok (.state session.state)
  | .setChecking checking => do
    Interaction.act (Action.setChecking checking)
    return .done
  | .setSettings settings => do
    let settings ← Stateful.lookup fun _ => settings.value
    Interaction.act (Action.setSettings settings)
    return .done
  | .reset => do
    Interaction.act Action.reset
    return .done
  | .snapshot keep => do
    let witness ← Stateful.inspect fun session => .ok session.state.witness
    produceWitness keep witness
  | .compile keep => do
    let circuit ← Stateful.inspect fun session => session.state.compile
    Interaction.keep keep.name fun session name =>
      { session with circuits := session.circuits.insert name circuit }
    return .circuit circuit keep.brief
  | .makeWitness values publicCount keep => do
    let values ← Stateful.lookup fun _ => values.mapM ArithmeticTerm.optional
    produceWitness keep ⟨values.toArray, publicCount⟩
  | .assign circuit witness keep => do
    let circuit ← Stateful.lookup fun session => session.circuits.find circuit
    let witness ← Stateful.lookup fun session => session.witnesses.find witness
    let rows ← Stateful.inspect fun _ => circuit.assign witness
    Interaction.keep keep.name fun session name =>
      { session with rows := session.rows.insert name rows }
    return .rows rows keep.brief
  | .verify circuit rows edits keepRows inputs => do
    let circuit ← Stateful.lookup fun session => session.circuits.find circuit
    let rows ← Stateful.lookup fun session => session.rows.find rows
    let rows ← Stateful.inspect fun _ => edits.foldlM Edit.apply rows
    let inputs ← Stateful.lookup fun _ => inputs.mapM Literal.value
    Stateful.lookup fun _ => circuit.verify (rows.take (keepRows.getD rows.length)) inputs
    return .done
  | .same a b => do
    let a ← Stateful.lookup fun session => session.circuits.find a
    let b ← Stateful.lookup fun session => session.circuits.find b
    return .same (a = b) (a.gates = b.gates) (a.digest = b.digest)

end Command

end ArithCircuit.Script
