/-!
Residues modulo `p`, the numbers that circuits compute with. A residue is held as its least
natural representative, so two residues are equal exactly when their representatives are. The
modulus is a parameter; division is meaningful when it is prime.
-/

namespace ArithCircuit

/-- A modulus is not zero. The zero is that of the numerals, so that the assumption says the same
whatever structure on the natural numbers is in scope. -/
abbrev Modulus (p : Nat) : Prop := @NeZero Nat ⟨0⟩ p

/-- A residue class modulo `p`, given by its representative below `p`. -/
structure Residue (p : Nat) where
  val : Nat
  isLt : val < p
deriving DecidableEq

namespace Residue

variable {p : Nat}

theorem modulus_pos (a : Residue p) : 0 < p :=
  Nat.lt_of_le_of_lt (Nat.zero_le _) a.isLt

@[ext] theorem ext {a b : Residue p} (h : a.val = b.val) : a = b := by
  cases a; cases b; simp_all

/-- The class of a natural number. -/
def ofNat (p : Nat) [Modulus p] (n : Nat) : Residue p :=
  ⟨n % p, Nat.mod_lt n (Nat.pos_of_neZero p)⟩

instance [Modulus p] : Zero (Residue p) := ⟨ofNat p 0⟩

instance [Modulus p] : One (Residue p) := ⟨ofNat p 1⟩

instance [Modulus p] : Inhabited (Residue p) := ⟨0⟩

/-- Residues are ordered by their representatives. -/
instance : Ord (Residue p) := ⟨compareOn val⟩

instance : Add (Residue p) :=
  ⟨fun a b => ⟨(a.val + b.val) % p, Nat.mod_lt _ a.modulus_pos⟩⟩

instance : Neg (Residue p) :=
  ⟨fun a => ⟨(p - a.val) % p, Nat.mod_lt _ a.modulus_pos⟩⟩

instance : Sub (Residue p) :=
  ⟨fun a b => ⟨(a.val + (p - b.val)) % p, Nat.mod_lt _ a.modulus_pos⟩⟩

instance : Mul (Residue p) :=
  ⟨fun a b => ⟨a.val * b.val % p, Nat.mod_lt _ a.modulus_pos⟩⟩

theorem val_ofNat [Modulus p] (n : Nat) : (ofNat p n).val = n % p := rfl

theorem val_add (a b : Residue p) : (a + b).val = (a.val + b.val) % p := rfl

theorem val_neg (a : Residue p) : (-a).val = (p - a.val) % p := rfl

theorem val_sub (a b : Residue p) : (a - b).val = (a.val + (p - b.val)) % p := rfl

theorem val_mul (a b : Residue p) : (a * b).val = a.val * b.val % p := rfl

theorem val_zero [Modulus p] : (0 : Residue p).val = 0 := Nat.zero_mod p

theorem val_one [Modulus p] : (1 : Residue p).val = 1 % p := rfl

/-- The class of an integer; a negative one is the negation of its absolute value. -/
def ofInt (p : Nat) [Modulus p] : Int → Residue p
  | .ofNat n => ofNat p n
  | .negSucc n => -ofNat p (n + 1)

/-- Square and multiply over the low `digits` binary digits of the exponent. -/
def powDigits [Modulus p] : Nat → Residue p → Nat → Residue p
  | 0, _, _ => 1
  | digits + 1, a, n =>
    let high := powDigits digits (a * a) (n / 2)
    if n % 2 = 1 then a * high else high

/-- The power `a ^ n`, in a number of multiplications proportional to the length of `n`. -/
def pow [Modulus p] (a : Residue p) (n : Nat) : Residue p :=
  powDigits (n.log2 + 1) a n

/-- The inverse of a nonzero residue modulo a prime is its power `p - 2`; zero is sent to zero. -/
instance [Modulus p] : Inv (Residue p) :=
  ⟨fun a => if a = 0 then 0 else a.pow (p - 2)⟩

instance [Modulus p] : Div (Residue p) := ⟨fun a b => a * b⁻¹⟩

/-- The inverse, or nothing for zero. -/
def inv? [Modulus p] (a : Residue p) : Option (Residue p) :=
  if a = 0 then none else some a⁻¹

/-- The square. -/
def square (a : Residue p) : Residue p := a * a

/-- Whether the representative is below `2 ^ bits`. -/
def fitsIn (a : Residue p) (bits : Nat) : Bool :=
  a.val == 0 || a.val.log2 < bits

end Residue

end ArithCircuit
