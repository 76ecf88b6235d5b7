import ArithCircuit.Residue.Basic

/-!
The two Pasta primes and the parameters of their multiplicative groups. Both groups have order
`2 ^ 32` times an odd number and are generated by five.
-/

namespace ArithCircuit

/-- The order of the base field of the Pallas curve. -/
def pallasPrime : Nat :=
  28948022309329048855892746252171976963363056481941560715954676764349967630337

/-- The order of the base field of the Vesta curve. -/
def vestaPrime : Nat :=
  28948022309329048855892746252171976963363056481941647379679742748393362948097

instance : Modulus pallasPrime := ⟨by decide⟩

instance : Modulus vestaPrime := ⟨by decide⟩

namespace Pasta

/-- The number of binary digits of both primes. -/
def bits : Nat := 255

/-- The exponent of two in the order of either multiplicative group. -/
def twoAdicity : Nat := 32

/-- A generator of either multiplicative group. -/
def generator : Nat := 5

/-- The odd part of `p - 1`. -/
def oddPart (p : Nat) : Nat := (p - 1) >>> twoAdicity

/-- A root of unity of order `2 ^ 32`. -/
def rootOfUnity (p : Nat) [Modulus p] : Residue p :=
  (Residue.ofNat p generator).pow (oddPart p)

end Pasta

end ArithCircuit
