import ArithCircuit.Expr
import ArithCircuit.Gate.Generic
import ArithCircuit.Gate.Kind
import ArithCircuit.Settings
import ArithCircuit.VariableTable
import Std.Data.TreeMap

/-!
A circuit while it is lowered: the halves and rows emitted so far, over the variables of the
circuit and auxiliary ones that hold intermediate sums. An operand is reduced to at most one
variable, with a scale and a constant that the coefficients of a half can take in.
-/

namespace ArithCircuit

/-- What a register holds: a variable of the circuit, or an auxiliary one. -/
inductive Signal where
  | var (index : Nat)
  | aux (index : Nat)
deriving DecidableEq

/-- The definition of an auxiliary variable as a sum of scaled signals and a constant. -/
structure AuxDef (p : Nat) where
  terms : List (Residue p × Signal)
  constant : Residue p
deriving DecidableEq

/-- The number of a signal among all signals. -/
def Signal.code : Signal → Nat
  | .var index => 2 * index
  | .aux index => 2 * index + 1

/-- A definition as a list of numbers, different for different definitions. -/
def AuxDef.code {p : Nat} (definition : AuxDef p) : List Nat :=
  definition.constant.val ::
    definition.terms.flatMap fun term => [term.1.val, term.2.code]

/-- One half of a generic row. -/
structure Half (p : Nat) where
  left : Option Signal
  right : Option Signal
  out : Option Signal
  coeffs : HalfCoeffs p

/-- What lowering emits: a half that may share its row, or a row of another kind. -/
inductive Emission (p : Nat) where
  | half (half : Half p)
  | row (kind : GateKind) (cells : List Signal) (coeffs : List (Residue p))

/-- The auxiliary variables defined and the halves and rows emitted so far. -/
structure Draft (p : Nat) where
  aux : Array (AuxDef p)
  /-- The index of each definition in `aux`, by its code. -/
  known : Std.TreeMap (List Nat) Nat
  emitted : Array (Emission p)

/-- The operand `scale * signal + constant`; without a signal it is the constant. -/
structure Operand (p : Nat) where
  scale : Residue p
  signal : Option Signal
  constant : Residue p

namespace Half

variable {p : Nat} [Modulus p]

/-- The signal of the term at a position. -/
def signalAt (terms : List (Residue p × Signal)) (i : Nat) : Option Signal :=
  terms[i]?.map Prod.snd

/-- The coefficient of the term at a position, zero if there is none. -/
def coeffAt (terms : List (Residue p × Signal)) (i : Nat) : Residue p :=
  (terms[i]?.map Prod.fst).getD 0

/-- The half stating that at most three terms and a constant sum to zero. -/
def sumZero (terms : List (Residue p × Signal)) (constant : Residue p) : Half p :=
  ⟨signalAt terms 0, signalAt terms 1, signalAt terms 2,
    ⟨coeffAt terms 0, coeffAt terms 1, coeffAt terms 2, 0, constant⟩⟩

/-- The half stating that a signal is the sum of at most two terms and a constant. -/
def defining (definition : AuxDef p) (signal : Signal) : Half p :=
  ⟨signalAt definition.terms 0, signalAt definition.terms 1, some signal,
    ⟨coeffAt definition.terms 0, coeffAt definition.terms 1, -1, 0, definition.constant⟩⟩

end Half

namespace Operand

variable {p : Nat} [Modulus p]

/-- The operand zero. -/
def zero : Operand p := ⟨0, none, 0⟩

end Operand

namespace Draft

variable {p : Nat} [Modulus p]

/-- Nothing emitted yet. -/
def empty : Draft p := ⟨#[], ∅, #[]⟩

/-- Emit a half or a row. -/
def emit : Draft p → Emission p → Draft p
  | ⟨aux, known, emitted⟩, emission => ⟨aux, known, emitted.push emission⟩

/-- Add a definition that is not known yet. -/
def extend : Draft p → AuxDef p → Draft p
  | ⟨aux, known, emitted⟩, definition =>
    ⟨aux.push definition, known.insert definition.code aux.size, emitted⟩

/-- An auxiliary variable with the given definition, of at most two terms: the one that has it
already, or a new one whose defining half is emitted. -/
def define (draft : Draft p) (definition : AuxDef p) : Signal × Draft p :=
  match draft.known[definition.code]? with
  | some index => (.aux index, draft)
  | none =>
    let signal := Signal.aux draft.aux.size
    (signal, (draft.extend definition).emit (.half (.defining definition signal)))

/-- Replace the two leading terms by an auxiliary variable until at most `keep` are left, but at
least one; the first term is given apart. -/
def reduceFrom (keep : Nat) (draft : Draft p) (head : Residue p × Signal) :
    List (Residue p × Signal) → List (Residue p × Signal) × Draft p
  | [] => ([head], draft)
  | next :: rest =>
    if keep < rest.length + 2 then
      let (signal, draft) := draft.define ⟨[head, next], 0⟩
      draft.reduceFrom keep (1, signal) rest
    else (head :: next :: rest, draft)

/-- Replace leading terms by auxiliary variables until at most `keep` are left. -/
def reduce (keep : Nat) (draft : Draft p) :
    List (Residue p × Signal) → List (Residue p × Signal) × Draft p
  | [] => ([], draft)
  | head :: rest => draft.reduceFrom keep head rest

/-- The terms of a form as scaled signals. -/
def signalTerms (form : LinearForm p) : List (Residue p × Signal) :=
  form.terms.map fun term => (term.1, .var term.2)

/-- Reduce an expression to an operand. -/
def operand (draft : Draft p) (settings : Settings) (table : VariableTable p) (e : Expr p) :
    Operand p × Draft p :=
  let form := table.resolveAs e.linear settings.normalizeOperands
  match draft.reduce 1 (signalTerms form) with
  | ([], draft) => (⟨0, none, form.constant⟩, draft)
  | ((scale, signal) :: _, draft) => (⟨scale, some signal, form.constant⟩, draft)

/-- Reduce the expression of a register that may be missing, which is the operand zero. -/
def operand? (draft : Draft p) (settings : Settings) (table : VariableTable p) :
    Option (Expr p) → Operand p × Draft p
  | none => (.zero, draft)
  | some e => draft.operand settings table e

/-- A signal that holds an operand, defined unless the operand is a plain signal. -/
def materialize (draft : Draft p) (x : Operand p) : Signal × Draft p :=
  match x.signal with
  | none => draft.define ⟨[], x.constant⟩
  | some signal =>
    if x.scale = 1 ∧ x.constant = 0 then (signal, draft)
    else draft.define ⟨[(x.scale, signal)], x.constant⟩

/-- Signals that hold expressions, from left to right. -/
def materializeAll (settings : Settings) (table : VariableTable p) :
    Draft p → List (Expr p) → List Signal × Draft p
  | draft, [] => ([], draft)
  | draft, e :: rest =>
    let (x, draft) := draft.operand settings table e
    let (signal, draft) := draft.materialize x
    let (signals, draft) := materializeAll settings table draft rest
    (signal :: signals, draft)

end Draft

end ArithCircuit
