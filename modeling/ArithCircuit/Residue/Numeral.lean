import ArithCircuit.Residue.Basic

/-!
Residues as text. A canonical numeral is a nonempty run of decimal digits, or `0x` followed by
a nonempty run of hexadecimal digits, that denotes a number below the modulus. Leading zeros are
read and never written. The signed form writes whichever of a residue and its negation has the
smaller representative.
-/

namespace ArithCircuit

/-- Why a text is not the numeral of a residue. -/
inductive NumeralError where
  /-- There are no digits. -/
  | empty
  /-- Some character is not a decimal digit. -/
  | notDecimal (text : String)
  /-- Some character after the mark is not a hexadecimal digit. -/
  | notHexadecimal (text : String)
  /-- The number is not below the modulus. -/
  | notCanonical (value : Nat)
deriving DecidableEq

/-- The wording of a numeral error. -/
def NumeralError.message : NumeralError → String
  | .empty => "empty field element encoding"
  | .notDecimal text => s!"failed to decode `{text}` as a decimal integer"
  | .notHexadecimal text => s!"failed to decode `{text}` as a hexadecimal integer"
  | .notCanonical value =>
    s!"{value} is not a canonical field element (it is not below the modulus)"

namespace Numeral

/-- The value of a hexadecimal digit, in either case. -/
def hexDigit? (c : Char) : Option Nat :=
  if '0' ≤ c ∧ c ≤ '9' then some (c.toNat - '0'.toNat)
  else if 'a' ≤ c ∧ c ≤ 'f' then some (c.toNat - 'a'.toNat + 10)
  else if 'A' ≤ c ∧ c ≤ 'F' then some (c.toNat - 'A'.toNat + 10)
  else none

/-- The value of a digit below the radix, which is at most sixteen. -/
def digit? (radix : Nat) (c : Char) : Option Nat :=
  (hexDigit? c).filter (· < radix)

/-- Read digits, the most significant first, after digits that denote `acc`. -/
def readFrom? (radix : Nat) : Nat → List Char → Option Nat
  | acc, [] => some acc
  | acc, c :: cs =>
    match digit? radix c with
    | none => none
    | some d => readFrom? radix (radix * acc + d) cs

/-- The number that a run of digits denotes; no digits denote zero. -/
def read? (radix : Nat) (digits : List Char) : Option Nat :=
  readFrom? radix 0 digits

/-- The digits after a hexadecimal mark, or nothing when there is no mark. -/
def unmarked? : List Char → Option (List Char)
  | '0' :: 'x' :: digits => some digits
  | '0' :: 'X' :: digits => some digits
  | _ => none

end Numeral

namespace Residue

variable {p : Nat}

/-- A number below the modulus as a residue. -/
def ofCanonical (n : Nat) : Except NumeralError (Residue p) :=
  if h : n < p then .ok ⟨n, h⟩ else .error (.notCanonical n)

/-- Read a run of digits, of which there must be one. A character that is no digit gives the
stated error. -/
def ofDigits (radix : Nat) (failure : NumeralError) (digits : List Char) :
    Except NumeralError (Residue p) :=
  if digits = [] then .error .empty
  else match Numeral.read? radix digits with
    | none => .error failure
    | some n => ofCanonical n

/-- Read a decimal numeral. -/
def ofDecimal (text : String) : Except NumeralError (Residue p) :=
  ofDigits 10 (.notDecimal text) text.toList

/-- Read a hexadecimal numeral, whose mark may be missing. -/
def ofHexadecimal (text : String) : Except NumeralError (Residue p) :=
  ofDigits 16 (.notHexadecimal text) ((Numeral.unmarked? text.toList).getD text.toList)

/-- Read a numeral: hexadecimal after a mark, decimal otherwise. -/
def ofNumeral (text : String) : Except NumeralError (Residue p) :=
  match Numeral.unmarked? text.toList with
  | some _ => ofHexadecimal text
  | none => ofDecimal text

/-- The decimal numeral without leading zeros. -/
def toDecimal (a : Residue p) : String := a.val.repr

/-- The marked hexadecimal numeral in lower case without leading zeros. -/
def toHexadecimal (a : Residue p) : String :=
  "0x" ++ String.ofList (Nat.toDigits 16 a.val)

/-- The decimal numeral of the residue, or a minus sign and that of its negation when the
negation is smaller. -/
def signed (a : Residue p) : String :=
  if (-a).val < a.val then "-" ++ (-a).toDecimal else a.toDecimal

end Residue

end ArithCircuit
