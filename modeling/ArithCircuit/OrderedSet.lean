import Std.Data.TreeMap

/-!
Sets that remember the order in which their members were first inserted.
-/

namespace ArithCircuit

/-- The members in the order of their first insertion, and the position of each of them. -/
structure OrderedSet (α : Type) [Ord α] where
  positions : Std.TreeMap α Nat
  items : Array α

namespace OrderedSet

variable {α : Type} [Ord α]

def empty : OrderedSet α := ⟨∅, #[]⟩

def size (set : OrderedSet α) : Nat := set.items.size

/-- The position of a member. -/
def position? (set : OrderedSet α) (a : α) : Option Nat := set.positions[a]?

/-- Add a value unless it is a member. -/
def insert : OrderedSet α → α → OrderedSet α
  | ⟨positions, items⟩, a =>
    if positions.contains a then ⟨positions, items⟩
    else ⟨positions.insert a items.size, items.push a⟩

end OrderedSet

end ArithCircuit
