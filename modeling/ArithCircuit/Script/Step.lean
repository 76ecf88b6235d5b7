import ArithCircuit.Script.Command

/-!
Scripts. A step that is refused or gives up has that as its answer, and the script goes on, except
in a strict body, which ends there. An unwinding step leaves every body up to the innermost mode
that catches it. Each mode that is entered has a guard, which is dropped on the way out.
-/

namespace ArithCircuit.Script

/-- How a script enters a mode and leaves it. -/
structure Entry where
  mode : Mode
  /-- The first step that fails ends the body, and its failure is the result of the mode. -/
  strict : Bool
  /-- Leave without asking for a result. -/
  drop : Bool
  /-- Stop an unwinding step here. -/
  catches : Bool
  circuitName : Option String
  witnessName : Option String
  brief : Bool

/-- A step of a script. -/
inductive Step where
  | command (command : Command)
  /-- Unwind. -/
  | unwind
  | repeated (count : Nat) (body : List Step)
  | enter (entry : Entry) (body : List Step)

/-- Why a step or a body does not go on. -/
inductive Interruption where
  | failed (stop : Stop)
  /-- Unwinding; a step that only passes it on is answered, the step that starts it is not. -/
  | unwinding (answered : Bool)

/-- What a step comes to. -/
inductive Outcome (p : Nat) where
  | answered (answer : Answer p)
  | interrupted (interruption : Interruption)

/-- What a body comes to: the answers of its steps, and why it ended early if it did. -/
structure BodyOutcome (p : Nat) where
  answers : List (Answer p)
  interruption : Option Interruption

/-- A session and the guards of the modes that have been entered and not left, the innermost
first. -/
structure Machine (p : Nat) where
  session : Session p
  guards : List (Guard p)

namespace BodyOutcome

variable {p : Nat}

/-- Put the answer of an earlier step in front. -/
def after (answer : Answer p) (outcome : BodyOutcome p) : BodyOutcome p :=
  ⟨answer :: outcome.answers, outcome.interruption⟩

/-- The answers of a body, the step that ended it included. -/
def allAnswers (outcome : BodyOutcome p) : List (Answer p) :=
  match outcome.interruption with
  | some (.failed stop) => outcome.answers ++ [.stopped stop]
  | some (.unwinding true) => outcome.answers ++ [.stopped .abort]
  | some (.unwinding false) | none => outcome.answers

/-- Whether a body is being unwound. -/
def unwinds (outcome : BodyOutcome p) : Bool :=
  match outcome.interruption with
  | some (.failed .abort) | some (.unwinding _) => true
  | some (.failed (.fault _)) | none => false

end BodyOutcome

namespace Machine

variable {p : Nat} [Modulus p] {α : Type}

/-- The session goes on; no mode is entered or left. -/
def interact (interaction : Interaction p α) (machine : Machine p) : Except Stop α × Machine p :=
  let (result, session) := interaction machine.session
  (result, ⟨session, machine.guards⟩)

/-- Enter a mode. -/
def enter (mode : Mode) (machine : Machine p) : Machine p :=
  let (guard, state) := Guard.enter mode machine.session.state
  ⟨{ machine.session with state := state }, guard :: machine.guards⟩

/-- Drop the guard of the innermost mode. -/
def drop (machine : Machine p) : Machine p :=
  match machine.guards with
  | [] => machine
  | guard :: guards =>
    ⟨{ machine.session with state := guard.drop machine.session.state }, guards⟩

end Machine

section

variable {p : Nat} [Modulus p]

/-- Execute a body a number of times, up to the first interruption, after executions whose answers
are those of `before` in reverse. -/
def iterateAfter (body : Machine p → BodyOutcome p × Machine p) (before : List (Answer p)) :
    Nat → Machine p → BodyOutcome p × Machine p
  | 0, machine => (⟨before.reverse, none⟩, machine)
  | count + 1, machine =>
    match body machine with
    | (⟨answers, some interruption⟩, machine) =>
      (⟨before.reverse ++ answers, some interruption⟩, machine)
    | (⟨answers, none⟩, machine) => iterateAfter body (answers.reverse ++ before) count machine

/-- Ask a mode for its result. -/
def finish (mode : Mode) : Action p (Option (Circuit p) × Option (Witness p)) :=
  match mode with
  | .constraintGeneration => do
    let circuit ← Action.finishCircuit
    return (some circuit, none)
  | .witnessGeneration => do
    let witness ← Action.finishWitness
    return (none, some witness)
  | .prover => do
    let witness ← Action.finishWitness
    let circuit ← Action.finishCircuit
    return (some circuit, some witness)
  | .idle => return (none, none)

/-- Keep the results of a mode under their names. -/
def keepResults (entry : Entry) (circuit : Option (Circuit p)) (witness : Option (Witness p))
    (session : Session p) : Session p :=
  let session :=
    match entry.circuitName, circuit with
    | some name, some circuit =>
      { session with circuits := session.circuits.insert name circuit }
    | _, _ => session
  match entry.witnessName, witness with
  | some name, some witness =>
    { session with witnesses := session.witnesses.insert name witness }
  | _, _ => session

/-- What a mode that gave up comes to. -/
def unwound (entry : Entry) (answers : List (Answer p)) : Outcome p :=
  if entry.catches then .answered (.entered answers (.stopped .abort))
  else .interrupted (.unwinding true)

/-- Leave a mode whose body has ended. If it ran to its end, the mode is asked for its result while
it is still live. Then its guard is dropped, as it is where the body failed or gives up, where no
result is wanted, and where the result is refused. -/
def leave (entry : Entry) (body : BodyOutcome p) (machine : Machine p) : Outcome p × Machine p :=
  let answers := body.allAnswers
  match body.interruption with
  | some (.unwinding _) | some (.failed .abort) => (unwound entry answers, machine.drop)
  | some (.failed (.fault fault)) =>
    (.answered (.entered answers (.stopped (.fault fault))), machine.drop)
  | none =>
    if entry.drop then (.answered (.entered answers .dropped), machine.drop)
    else
      match machine.interact (.act (finish entry.mode)) with
      | (.ok (circuit, witness), machine) =>
        let ⟨session, guards⟩ := machine.drop
        (.answered (.entered answers (.finished circuit witness entry.brief)),
          ⟨keepResults entry circuit witness session, guards⟩)
      | (.error (.fault fault), machine) =>
        (.answered (.entered answers (.stopped (.fault fault))), machine.drop)
      | (.error .abort, machine) => (unwound entry answers, machine.drop)

mutual

/-- Execute a step. -/
def Step.execute : Step → Machine p → Outcome p × Machine p
  | .command command, machine =>
    match machine.interact command.execute with
    | (.ok answer, machine) => (.answered answer, machine)
    | (.error stop, machine) => (.interrupted (.failed stop), machine)
  | .unwind, machine => (.interrupted (.unwinding false), machine)
  | .repeated _ [], machine => (.answered (.steps []), machine)
  | .repeated count (step :: rest), machine =>
    match iterateAfter (executeBody true (step :: rest)) [] count machine with
    | (⟨answers, none⟩, machine) => (.answered (.steps answers), machine)
    | (⟨_, some interruption⟩, machine) => (.interrupted interruption, machine)
  | .enter entry body, machine =>
    let (outcome, machine) := executeBody entry.strict body (machine.enter entry.mode)
    leave entry outcome machine

/-- Execute steps in order. A strict body ends at the first one that fails. -/
def executeBody (strict : Bool) : List Step → Machine p → BodyOutcome p × Machine p
  | [], machine => (⟨[], none⟩, machine)
  | step :: rest, machine =>
    match step.execute machine with
    | (.answered answer, machine) =>
      let (outcome, machine) := executeBody strict rest machine
      (outcome.after answer, machine)
    | (.interrupted (.failed stop), machine) =>
      if strict then (⟨[], some (.failed stop)⟩, machine)
      else
        let (outcome, machine) := executeBody strict rest machine
        (outcome.after (.stopped stop), machine)
    | (.interrupted (.unwinding answered), machine) =>
      (⟨[], some (.unwinding answered)⟩, machine)

end

/-- Execute a script: the answers of its steps, and whether it was unwound. Whatever happened, the
session can go on. -/
def run (steps : List Step) (session : Session p) : List (Answer p) × Bool × Session p :=
  let (outcome, machine) := executeBody false steps ⟨session, []⟩
  (outcome.allAnswers, outcome.unwinds, machine.session)

end

end ArithCircuit.Script
