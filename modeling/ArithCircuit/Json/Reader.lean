import ArithCircuit.Json.Basic

/-!
Reading JSON text. A document is one value with blanks around it; a string holds no bare control
character and only known escapes; a number follows the grammar of JSON. Every function returns
what it read and the text after it.
-/

namespace ArithCircuit.Json

def isSpace (c : Char) : Bool := c == ' ' || c == '\n' || c == '\t' || c == '\r'

def skipSpace (text : List Char) : List Char := text.dropWhile isSpace

def isDigit (c : Char) : Bool := '0' ≤ c && c ≤ '9'

def isHexDigit (c : Char) : Bool := (Numeral.hexDigit? c).isSome

/-- The body of a string up to its closing quote, after the characters of `before` in reverse. -/
def readBody (before : List Char) : List Char → Option (List Char × List Char)
  | [] => none
  | '"' :: rest => some (before.reverse, rest)
  | '\\' :: 'u' :: a :: b :: c :: d :: rest =>
    if isHexDigit a && isHexDigit b && isHexDigit c && isHexDigit d then
      readBody (d :: c :: b :: a :: 'u' :: '\\' :: before) rest
    else none
  | '\\' :: c :: rest =>
    if (shortEscape? c).isSome then readBody (c :: '\\' :: before) rest else none
  | c :: rest => if c.toNat < 0x20 then none else readBody (c :: before) rest

/-- At least one digit. -/
def readDigits (text : List Char) : Option (List Char × List Char) :=
  match text.takeWhile isDigit with
  | [] => none
  | digits => some (digits, text.dropWhile isDigit)

/-- The digits before the point: a lone zero, or digits that do not start with one. -/
def readWhole : List Char → Option (List Char × List Char)
  | '0' :: rest => some (['0'], rest)
  | text => readDigits text

/-- A fraction, if there is a point. -/
def readFraction : List Char → Option (List Char × List Char)
  | '.' :: rest => (readDigits rest).map fun read => ('.' :: read.1, read.2)
  | text => some ([], text)

/-- An exponent, if there is a mark for one. -/
def readExponent : List Char → Option (List Char × List Char)
  | c :: rest =>
    if c = 'e' ∨ c = 'E' then
      match rest with
      | '+' :: rest => (readDigits rest).map fun read => (c :: '+' :: read.1, read.2)
      | '-' :: rest => (readDigits rest).map fun read => (c :: '-' :: read.1, read.2)
      | rest => (readDigits rest).map fun read => (c :: read.1, read.2)
    else some ([], c :: rest)
  | [] => some ([], [])

/-- The literal of a number without its sign. -/
def readMagnitude (text : List Char) : Option (List Char × List Char) :=
  match readWhole text with
  | none => none
  | some (whole, rest) =>
    match readFraction rest with
    | none => none
    | some (fraction, rest) =>
      match readExponent rest with
      | none => none
      | some (exponent, rest) => some (whole ++ fraction ++ exponent, rest)

/-- The literal of a number. -/
def readNumber : List Char → Option (List Char × List Char)
  | '-' :: rest => (readMagnitude rest).map fun read => ('-' :: read.1, read.2)
  | text => readMagnitude text

mutual

/-- One value after blanks. The first argument bounds the nesting. -/
def readValue : Nat → List Char → Option (Json × List Char)
  | 0, _ => none
  | bound + 1, text =>
    match skipSpace text with
    | 'n' :: 'u' :: 'l' :: 'l' :: rest => some (.null, rest)
    | 't' :: 'r' :: 'u' :: 'e' :: rest => some (.bool true, rest)
    | 'f' :: 'a' :: 'l' :: 's' :: 'e' :: rest => some (.bool false, rest)
    | '"' :: rest => (readBody [] rest).map fun read => (.string read.1, read.2)
    | '[' :: rest =>
      match skipSpace rest with
      | ']' :: rest => some (.array [], rest)
      | rest => (readItems bound rest).map fun read => (.array read.1, read.2)
    | '\x7b' :: rest =>
      match skipSpace rest with
      | '\x7d' :: rest => some (.object [], rest)
      | rest => (readMembers bound rest).map fun read => (.object read.1, read.2)
    | rest => (readNumber rest).map fun read => (.number read.1, read.2)

/-- Items up to the closing bracket, at least one. -/
def readItems : Nat → List Char → Option (List Json × List Char)
  | 0, _ => none
  | bound + 1, text =>
    match readValue bound text with
    | none => none
    | some (item, rest) =>
      match skipSpace rest with
      | ']' :: rest => some ([item], rest)
      | ',' :: rest => (readItems bound rest).map fun read => (item :: read.1, read.2)
      | _ => none

/-- Members up to the closing brace, at least one. -/
def readMembers : Nat → List Char → Option (List (List Char × Json) × List Char)
  | 0, _ => none
  | bound + 1, text =>
    match skipSpace text with
    | '"' :: rest =>
      match readBody [] rest with
      | none => none
      | some (key, rest) =>
        match skipSpace rest with
        | ':' :: rest =>
          match readValue bound rest with
          | none => none
          | some (item, rest) =>
            match skipSpace rest with
            | '\x7d' :: rest => some ([(key, item)], rest)
            | ',' :: rest =>
              (readMembers bound rest).map fun read => ((key, item) :: read.1, read.2)
            | _ => none
        | _ => none
    | _ => none

end

/-- Read a document. The bound is never met: a level of nesting spends two of it and an item or a
member one, and each takes at least two characters. -/
def read? (text : List Char) : Option Json :=
  match readValue (2 * text.length + 2) text with
  | none => none
  | some (json, rest) => if skipSpace rest = [] then some json else none

/-- Read a document. -/
def ofString? (text : String) : Option Json := read? text.toList

end ArithCircuit.Json
