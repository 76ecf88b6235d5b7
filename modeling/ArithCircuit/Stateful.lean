import ArithCircuit.Fault

/-!
Operations on a state that may end early. What an operation changed before it ended stays changed.
-/

namespace ArithCircuit

/-- An operation on a state of type `σ`. -/
def Stateful (σ α : Type) : Type := σ → Except Stop α × σ

namespace Stateful

variable {σ α β : Type}

/-- Only return a value. -/
def ret (a : α) : Stateful σ α := fun s => (.ok a, s)

/-- One operation, and then another that depends on its result. -/
def andThen (first : Stateful σ α) (next : α → Stateful σ β) : Stateful σ β := fun s =>
  match first s with
  | (.ok a, s) => next a s
  | (.error stop, s) => (.error stop, s)

instance : Monad (Stateful σ) where
  pure := ret
  bind := andThen

/-- End early. -/
def stop (stop : Stop) : Stateful σ α := fun s => (.error stop, s)

/-- End with a cause. -/
def refuse (fault : Fault) : Stateful σ α := stop (.fault fault)

/-- Compute something from the state, without changing it. -/
def inspect (f : σ → Except Stop α) : Stateful σ α := fun s => (f s, s)

/-- Look something up in the state, where it may be refused. -/
def lookup (f : σ → Except Fault α) : Stateful σ α := inspect fun s => (f s).mapError .fault

/-- Change the state. -/
def update (f : σ → σ) : Stateful σ Unit := fun s => (.ok (), f s)

end Stateful

end ArithCircuit
