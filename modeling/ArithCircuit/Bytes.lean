/-!
Numbers as bytes.
-/

namespace ArithCircuit.Bytes

/-- The last `count` base 256 digits of a number, the most significant first. -/
def bigEndian : Nat → Nat → List UInt8
  | 0, _ => []
  | count + 1, n => bigEndian count (n / 256) ++ [n.toUInt8]

end ArithCircuit.Bytes
