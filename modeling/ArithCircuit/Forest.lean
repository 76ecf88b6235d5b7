import ArithCircuit.Residue.Basic

/-!
Classes of variables related by affine equations. Variables are numbered in the order in which
they are made. A variable is free, or linked to an older one by `child = coeff * parent + offset`,
or pinned to a constant. Links always go to a smaller index, so the representative of a class
that is not pinned is its oldest variable.
-/

namespace ArithCircuit

/-- What a variable is worth: an affine function of the representative of its class, or a
constant when the class is pinned. -/
inductive Rep (p : Nat) where
  | var (index : Nat) (coeff offset : Residue p)
  | const (value : Residue p)
deriving DecidableEq

namespace Rep

variable {p : Nat}

/-- The variable itself. -/
def ofVar [Modulus p] (index : Nat) : Rep p := .var index 1 0

/-- What `coeff * x + offset` is worth when `x` is worth the given representative. -/
def affine (rep : Rep p) (coeff offset : Residue p) : Rep p :=
  match rep with
  | .var index c o => .var index (coeff * c) (coeff * o + offset)
  | .const value => .const (coeff * value + offset)

/-- The value under a total assignment. -/
def value (w : Nat → Residue p) : Rep p → Residue p
  | .var index coeff offset => coeff * w index + offset
  | .const value => value

end Rep

/-- How a variable stands in its class. -/
inductive Node (p : Nat) where
  /-- A free representative. -/
  | root
  /-- Equal to `coeff * parent + offset`. -/
  | link (parent : Nat) (coeff offset : Residue p)
  /-- Equal to a constant. -/
  | pinned (value : Residue p)
deriving DecidableEq

/-- The node that states directly what a linked variable is worth. -/
def Node.ofRep {p : Nat} : Rep p → Node p
  | .var index coeff offset => .link index coeff offset
  | .const value => .pinned value

/-- The classes of the variables `0`, `1`, … -/
structure Forest (p : Nat) where
  nodes : Array (Node p)

namespace Forest

variable {p : Nat} [Modulus p]

/-- No variables. -/
def empty : Forest p := ⟨#[]⟩

def size (forest : Forest p) : Nat := forest.nodes.size

/-- Add a variable in a class of its own. -/
def push (forest : Forest p) : Forest p := ⟨forest.nodes.push .root⟩

/-- What a variable is worth; nothing for an index that has not been made. -/
def find (forest : Forest p) (x : Nat) : Option (Rep p) :=
  match forest.nodes[x]? with
  | none => none
  | some .root => some (.ofVar x)
  | some (.pinned value) => some (.const value)
  | some (.link parent coeff offset) =>
    if _h : parent < x then (forest.find parent).map (·.affine coeff offset) else none
termination_by x

/-- Let every variable on the path from `x` to its representative state directly what it is
worth. -/
def compress (forest : Forest p) (x : Nat) : Forest p :=
  match forest.nodes[x]? with
  | some (.link parent coeff offset) =>
    if _h : parent < x then
      let shorter := forest.compress parent
      match shorter.find parent with
      | none => shorter
      | some rep => ⟨shorter.nodes.setIfInBounds x (.ofRep (rep.affine coeff offset))⟩
    else forest
  | _ => forest
termination_by x

/-- Whether a variable represents a class that is not pinned. -/
def isRoot (forest : Forest p) (x : Nat) : Bool :=
  match forest.nodes[x]? with
  | some .root => true
  | _ => false

/-- Record `child = coeff * parent + offset` between two free representatives of which the
parent is the older; the link must be invertible. -/
def link? (forest : Forest p) (child parent : Nat) (coeff offset : Residue p) :
    Option (Forest p) :=
  if parent < child ∧ forest.isRoot child ∧ forest.isRoot parent ∧ coeff ≠ 0 then
    some ⟨forest.nodes.setIfInBounds child (.link parent coeff offset)⟩
  else none

/-- Pin the class of a free representative to a constant. -/
def pin? (forest : Forest p) (root : Nat) (value : Residue p) : Option (Forest p) :=
  if forest.isRoot root then some ⟨forest.nodes.setIfInBounds root (.pinned value)⟩ else none

end Forest

end ArithCircuit
