/-!
Bytes as pairs of hexadecimal digits in lower case.
-/

namespace ArithCircuit.Text

/-- The two digits of a byte. -/
def hexDigits (byte : UInt8) : List Char :=
  [Nat.digitChar (byte.toNat / 16), Nat.digitChar (byte.toNat % 16)]

/-- The digits of a string of bytes, in order. -/
def hex (bytes : List UInt8) : String :=
  String.ofList (bytes.flatMap hexDigits)

end ArithCircuit.Text
