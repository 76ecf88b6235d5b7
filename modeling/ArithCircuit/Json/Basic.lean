import ArithCircuit.Residue.Numeral

/-!
JSON documents as syntax. Numbers and strings are kept as they are spelled; what they denote is
a matter for those who read them. The compact form writes a document without blanks.
-/

namespace ArithCircuit

/-- A JSON document. A number is its literal, and a string, like the name of a member, is the
text between the quotes with its escapes. -/
inductive Json where
  | null
  | bool (value : Bool)
  | number (literal : List Char)
  | string (body : List Char)
  | array (items : List Json)
  | object (members : List (List Char × Json))

namespace Json

instance : Inhabited Json := ⟨.null⟩

/-- How a character is spelled inside a string: quotes, backslashes and control characters are
escaped, with the short escape where there is one. -/
def escapeChar (c : Char) : List Char :=
  if c = '"' then ['\\', '"']
  else if c = '\\' then ['\\', '\\']
  else if c = '\x08' then ['\\', 'b']
  else if c = '\x0c' then ['\\', 'f']
  else if c = '\n' then ['\\', 'n']
  else if c = '\r' then ['\\', 'r']
  else if c = '\t' then ['\\', 't']
  else if c.toNat < 0x20 then
    ['\\', 'u', '0', '0', Nat.digitChar (c.toNat / 16), Nat.digitChar (c.toNat % 16)]
  else [c]

/-- The spelling of a text inside a string. -/
def escape (text : List Char) : List Char := text.flatMap escapeChar

def ofText (text : String) : Json := .string (escape text.toList)

def ofNat (n : Nat) : Json := .number (Nat.toDigits 10 n)

/-- An object with the given members, in order. -/
def record (members : List (String × Json)) : Json :=
  .object (members.map fun member => (escape member.1.toList, member.2))

mutual

/-- The compact form. -/
def compact : Json → List Char
  | .null => ['n', 'u', 'l', 'l']
  | .bool true => ['t', 'r', 'u', 'e']
  | .bool false => ['f', 'a', 'l', 's', 'e']
  | .number literal => literal
  | .string body => '"' :: body ++ ['"']
  | .array items => '[' :: compactItems items ++ [']']
  | .object members => '\x7b' :: compactMembers members ++ ['\x7d']

/-- Items separated by commas. -/
def compactItems : List Json → List Char
  | [] => []
  | [item] => compact item
  | item :: next :: rest => compact item ++ ',' :: compactItems (next :: rest)

/-- Members separated by commas. -/
def compactMembers : List (List Char × Json) → List Char
  | [] => []
  | [(key, item)] => '"' :: key ++ '"' :: ':' :: compact item
  | (key, item) :: next :: rest =>
    '"' :: key ++ '"' :: ':' :: compact item ++ ',' :: compactMembers (next :: rest)

end

/-- The text of the compact form. -/
def text (json : Json) : String := String.ofList json.compact

/-- The four digits of an escape as a number. -/
def hexQuad? (a b c d : Char) : Option Nat := Numeral.read? 16 [a, b, c, d]

/-- What an escape after a backslash denotes, other than one by number. -/
def shortEscape? : Char → Option Char
  | '"' => some '"'
  | '\\' => some '\\'
  | '/' => some '/'
  | 'b' => some '\x08'
  | 'f' => some '\x0c'
  | 'n' => some '\n'
  | 'r' => some '\r'
  | 't' => some '\t'
  | _ => none

/-- The text that the body of a string denotes, after the characters of `before` in reverse. An
escape by number outside the basic plane is a pair of surrogates; a surrogate without its partner
denotes nothing. -/
def unescapeAfter? (before : List Char) : List Char → Option (List Char)
  | [] => some before.reverse
  | '\\' :: 'u' :: a :: b :: c :: d :: rest =>
    match hexQuad? a b c d with
    | none => none
    | some high =>
      if 0xD800 ≤ high ∧ high < 0xDC00 then
        match rest with
        | '\\' :: 'u' :: a' :: b' :: c' :: d' :: rest' =>
          match hexQuad? a' b' c' d' with
          | none => none
          | some low =>
            if 0xDC00 ≤ low ∧ low < 0xE000 then
              unescapeAfter?
                (Char.ofNat (0x10000 + 0x400 * (high - 0xD800) + (low - 0xDC00)) :: before) rest'
            else none
        | _ => none
      else if 0xDC00 ≤ high ∧ high < 0xE000 then none
      else unescapeAfter? (Char.ofNat high :: before) rest
  | '\\' :: c :: rest =>
    match shortEscape? c with
    | none => none
    | some plain => unescapeAfter? (plain :: before) rest
  | c :: rest => unescapeAfter? (c :: before) rest

/-- The text that the body of a string denotes. -/
def unescape? (body : List Char) : Option (List Char) := unescapeAfter? [] body

/-- The text of a string. -/
def text? : Json → Option String
  | .string body => (unescape? body).map String.ofList
  | _ => none

/-- The natural number of a literal without sign, fraction and exponent. -/
def nat? : Json → Option Nat
  | .number literal => Numeral.read? 10 literal
  | _ => none

/-- The integer of a literal without fraction and exponent. -/
def int? : Json → Option Int
  | .number ('-' :: digits) => (Numeral.read? 10 digits).map fun n => -(n : Int)
  | .number literal => (Numeral.read? 10 literal).map Int.ofNat
  | _ => none

def bool? : Json → Option Bool
  | .bool value => some value
  | _ => none

def items? : Json → Option (List Json)
  | .array items => some items
  | _ => none

end Json

end ArithCircuit
