import ArithCircuit.Run.State

/-!
Gadgets: operations on expressions that may introduce variables and constraints. With constant
folding, products that involve a constant stay expressions and cost nothing.
-/

namespace ArithCircuit.Gadget

variable {p : Nat} [Modulus p]

/-- Read a value in a computation. -/
def peek (env : Env p) (e : Expr p) : Except Stop (Residue p) :=
  (env.read e).mapError .fault

/-- The product of two expressions, as a new variable. -/
def freshProduct (a b : Expr p) (label : Option String) : Action p (Expr p) := do
  let result ← Action.compute fun env => do
    let x ← peek env a
    let y ← peek env b
    return x * y
  Action.constrain (.product a b result) (some (label.getD "checked_mul"))
  return result

/-- The product of two expressions. -/
def mul (a b : Expr p) (label : Option String) : Action p (Expr p) := fun state =>
  if state.foldConstants then
    match a, b with
    | .const x, .const y => (.ok (.const (x * y)), state)
    | .const x, b => (.ok (b.scaleBy x), state)
    | a, .const y => (.ok (a.scaleBy y), state)
    | a, b => freshProduct a b label state
  else freshProduct a b label state

/-- The square of an expression, as a new variable. -/
def freshSquare (a : Expr p) (label : Option String) : Action p (Expr p) := do
  let result ← Action.compute fun env => do
    let x ← peek env a
    return x * x
  Action.constrain (.square a result) (some (label.getD "checked_square"))
  return result

/-- The square of an expression. -/
def square (a : Expr p) (label : Option String) : Action p (Expr p) := fun state =>
  match a with
  | .const x =>
    if state.foldConstants then (.ok (.const (x * x)), state)
    else freshSquare a label state
  | a => freshSquare a label state

/-- The inverse of an expression, as a new variable. -/
def freshInverse (a : Expr p) (label : String) : Action p (Expr p) := do
  let result ← Action.compute fun env => do
    let x ← peek env a
    match x.inv? with
    | some y => return y
    | none => .error (.fault (.unsatisfied (some label) (a.text ++ " * x = 1") [x.signed]))
  Action.constrain (.product a result 1) (some label)
  return result

/-- The inverse of an expression; zero is refused. -/
def inv (a : Expr p) (label : Option String) : Action p (Expr p) := fun state =>
  let label := label.getD "field_inv"
  match a with
  | .const x =>
    if state.foldConstants then
      match x.inv? with
      | some y => (.ok (.const y), state)
      | none => Stateful.refuse (.unsatisfied (some label) "0 * x = 1" []) state
    else freshInverse a label state
  | a => freshInverse a label state

/-- The quotient of two expressions; division by zero is refused. -/
def div (a b : Expr p) (label : Option String) : Action p (Expr p) := do
  let inverse ← inv b label
  mul a inverse label

/-- An expression that is one when `z` is zero, and zero otherwise. It comes with an inverse of
`z`, or zero, and the two constraints `inverse * z = 1 - result` and `result * z = 0`. -/
def isZero (z : Expr p) : Action p (Expr p) := do
  let vars ← Action.introduce 2 fun env => do
    let x ← peek env z
    match x.inv? with
    | some y => return [0, y]
    | none => return [1, 0]
  match vars with
  | [result, inverse] =>
    Action.constrain (.product inverse z (1 - result)) (some "equals_1")
    Action.constrain (.product result z 0) (some "equals_2")
    return result
  | vars => Stateful.refuse (.valueCount vars.length 2)

/-- An expression that is one when two expressions are equal, and zero otherwise. -/
def equal (a b : Expr p) : Action p (Expr p) :=
  match a, b with
  | .const x, .const y => return if x = y then 1 else 0
  | a, b => isZero (a - b)

/-- The second expression when the first is one, and the third when it is zero. The first is
taken to be one of the two. -/
def select (condition yes no : Expr p) : Action p (Expr p) :=
  if condition = 1 then return yes
  else if condition = 0 then return no
  else do
    let selected ← mul condition (yes - no) (some "if_")
    return selected + no

end ArithCircuit.Gadget
