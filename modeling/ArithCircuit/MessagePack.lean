import ArithCircuit.Bytes

/-!
MessagePack, as far as digests need it: natural numbers, texts and arrays. A number and a length
are written in the shortest form that holds them, a text as its UTF-8 bytes, and a record as the
array of its fields.
-/

namespace ArithCircuit.MessagePack

/-- A number below `2 ^ 64`. -/
def nat (n : Nat) : List UInt8 :=
  if n < 0x80 then [n.toUInt8]
  else if n < 0x100 then 0xcc :: Bytes.bigEndian 1 n
  else if n < 0x10000 then 0xcd :: Bytes.bigEndian 2 n
  else if n < 0x100000000 then 0xce :: Bytes.bigEndian 4 n
  else 0xcf :: Bytes.bigEndian 8 n

/-- The header of a text of `length` bytes. -/
def textHeader (length : Nat) : List UInt8 :=
  if length < 0x20 then [(0xa0 + length).toUInt8]
  else if length < 0x100 then 0xd9 :: Bytes.bigEndian 1 length
  else if length < 0x10000 then 0xda :: Bytes.bigEndian 2 length
  else 0xdb :: Bytes.bigEndian 4 length

/-- The header of an array of `length` items. -/
def arrayHeader (length : Nat) : List UInt8 :=
  if length < 0x10 then [(0x90 + length).toUInt8]
  else if length < 0x10000 then 0xdc :: Bytes.bigEndian 2 length
  else 0xdd :: Bytes.bigEndian 4 length

def utf8 (text : String) : List UInt8 := text.toUTF8.data.toList

def text (text : String) : List UInt8 :=
  textHeader (utf8 text).length ++ utf8 text

/-- An array whose items are written by `item`. -/
def array {α : Type} (item : α → List UInt8) (items : List α) : List UInt8 :=
  arrayHeader items.length ++ items.flatMap item

end ArithCircuit.MessagePack
