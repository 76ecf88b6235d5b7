import ArithCircuit.Script.Term

/-!
Sessions: a run together with the names that its scripts have set. Names live across modes and
across scripts.
-/

namespace ArithCircuit.Script

/-- The state of a run and the names set so far. -/
structure Session (p : Nat) where
  state : RunState p
  exprs : Bindings (Expr p)
  circuits : Bindings (Circuit p)
  witnesses : Bindings (Witness p)
  rows : Bindings (List (Cells p))

/-- What a mode leaves behind when a script leaves it. -/
inductive Exit (p : Nat) where
  /-- The mode was left without asking for a result. -/
  | dropped
  | stopped (stop : Stop)
  /-- What the mode produces: a circuit, a witness, or both. -/
  | finished (circuit : Option (Circuit p)) (witness : Option (Witness p)) (brief : Bool)

/-- What a script learns from one of its steps. -/
inductive Answer (p : Nat) where
  | nothing
  | done
  | expr (e : Expr p)
  | exprs (es : List (Expr p))
  | value (x : Residue p)
  | values (xs : List (Residue p))
  | state (state : RunState p)
  | witness (witness : Witness p) (brief : Bool)
  | circuit (circuit : Circuit p) (brief : Bool)
  | rows (rows : List (Cells p)) (brief : Bool)
  | same (circuits gates digests : Bool)
  | stopped (stop : Stop)
  /-- The answers of a repeated body. -/
  | steps (answers : List (Answer p))
  /-- The answers of a body in a mode of its own. -/
  | entered (answers : List (Answer p)) (exit : Exit p)

/-- An operation of a script. -/
abbrev Interaction (p : Nat) := Stateful (Session p)

namespace Session

variable {p : Nat} [Modulus p]

/-- A session that has not started. -/
def start (settings : Settings) : Session p := ⟨.idle settings, .empty, .empty, .empty, .empty⟩

end Session

namespace Interaction

variable {p : Nat} {α : Type}

/-- Carry out an operation of the run. -/
def act (action : Action p α) : Interaction p α
  | ⟨state, exprs, circuits, witnesses, rows⟩ =>
    let (result, state) := action state
    (result, ⟨state, exprs, circuits, witnesses, rows⟩)

/-- Set a name if one is given. -/
def keep (name : Option String) (set : Session p → String → Session p) : Interaction p Unit :=
  Stateful.update fun session =>
    match name with
    | none => session
    | some name => set session name

/-- Let names stand for expressions, in order, as far as there are both. -/
def keepAll (names : List String) (es : List (Expr p)) : Interaction p Unit :=
  Stateful.update fun session =>
    { session with
      exprs := (names.zip es).foldl (fun exprs entry => exprs.insert entry.1 entry.2)
        session.exprs }

end Interaction

end ArithCircuit.Script
