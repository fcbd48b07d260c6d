import JvmClass.Error

/-!
# Binary codecs

A codec pairs the reader of a binary form with its writer. Reading takes a
value from the front of the bytes and leaves the rest; it fails when the bytes
end too early or have no meaning. Writing fails only where a length does not
fit the field that holds it. Numbers are big-endian, and a table is a 16-bit
count followed by its entries.
-/

namespace JvmClass

/-- Takes a value from the front of the bytes that are left. -/
abbrev Decoder := StateT (List UInt8) (Except Error)

/-- Decode several values in a row. `done` holds the values before them, last
first. -/
def Decoder.times {α : Type} (decode : Decoder α) (done : List α) : Nat → Decoder (List α)
  | 0 => pure done.reverse
  | count + 1 => fun bytes =>
    match decode bytes with
    | .ok (a, rest) => Decoder.times decode (a :: done) count rest
    | .error e => .error e

/-- Takes exactly `count` bytes. -/
def Decoder.take (count : Nat) : Decoder (List UInt8) := fun bytes =>
  let (taken, rest) := bytes.splitAt count
  if taken.length = count then .ok (taken, rest)
  else .error (.truncatedBytes count taken.length)

/-- A binary form: how a value is read and how it is written. -/
structure Codec (α : Type) where
  /-- Reads a value from the front of the bytes. -/
  decode : Decoder α
  /-- The bytes of a value. -/
  encode : α → Except Error (List UInt8)

namespace Codec

variable {α β : Type}

/-- Read another type through a pair of conversions. -/
def convert (c : Codec α) (into : α → β) (back : β → α) : Codec β where
  decode := into <$> c.decode
  encode b := c.encode (back b)

/-- Two values in a row. -/
def pair (first : Codec α) (second : Codec β) : Codec (α × β) where
  decode := do
    let a ← first.decode
    let b ← second.decode
    pure (a, b)
  encode := fun (a, b) => do
    let start ← first.encode a
    let stop ← second.encode b
    pure (start ++ stop)

/-! ## Numbers -/

/-- The two bytes of a 16-bit number. -/
def bytesOfU16 (n : UInt16) : List UInt8 :=
  [UInt8.ofNat (n.toNat / 256), UInt8.ofNat (n.toNat % 256)]

/-- The 16-bit number of two bytes. -/
def u16OfBytes (a b : UInt8) : UInt16 := UInt16.ofNat (a.toNat * 256 + b.toNat)

/-- The four bytes of a 32-bit number. -/
def bytesOfU32 (n : UInt32) : List UInt8 :=
  bytesOfU16 (UInt16.ofNat (n.toNat / 65536)) ++ bytesOfU16 (UInt16.ofNat (n.toNat % 65536))

/-- The 32-bit number of four bytes. -/
def u32OfBytes (a b c d : UInt8) : UInt32 :=
  UInt32.ofNat ((u16OfBytes a b).toNat * 65536 + (u16OfBytes c d).toNat)

/-- The eight bytes of a 64-bit number. -/
def bytesOfU64 (n : UInt64) : List UInt8 :=
  bytesOfU32 (UInt32.ofNat (n.toNat / 4294967296)) ++
    bytesOfU32 (UInt32.ofNat (n.toNat % 4294967296))

/-- The 64-bit number of its upper and lower half. -/
def u64OfHalves (high low : UInt32) : UInt64 :=
  UInt64.ofNat (high.toNat * 4294967296 + low.toNat)

/-- An unsigned byte. -/
def u8 : Codec UInt8 where
  decode
    | a :: rest => .ok (a, rest)
    | [] => .error .truncatedNumber
  encode n := .ok [n]

/-- An unsigned 16-bit number. -/
def u16 : Codec UInt16 where
  decode
    | a :: b :: rest => .ok (u16OfBytes a b, rest)
    | _ => .error .truncatedNumber
  encode n := .ok (bytesOfU16 n)

/-- An unsigned 32-bit number. -/
def u32 : Codec UInt32 where
  decode
    | a :: b :: c :: d :: rest => .ok (u32OfBytes a b c d, rest)
    | _ => .error .truncatedNumber
  encode n := .ok (bytesOfU32 n)

/-- An unsigned 64-bit number. -/
def u64 : Codec UInt64 where
  decode
    | a :: b :: c :: d :: e :: f :: g :: h :: rest =>
      .ok (u64OfHalves (u32OfBytes a b c d) (u32OfBytes e f g h), rest)
    | _ => .error .truncatedNumber
  encode n := .ok (bytesOfU64 n)

/-- A signed byte. -/
def i8 : Codec Int8 := u8.convert UInt8.toInt8 Int8.toUInt8

/-- A signed 16-bit number. -/
def i16 : Codec Int16 := u16.convert UInt16.toInt16 Int16.toUInt16

/-- A signed 32-bit number. -/
def i32 : Codec Int32 := u32.convert UInt32.toInt32 Int32.toUInt32

/-- A signed 64-bit number. -/
def i64 : Codec Int64 := u64.convert UInt64.toInt64 Int64.toUInt64

/-! ## Lengths, texts and tables -/

/-- The bytes of a 16-bit length, if it fits. -/
def encodeLength16 (limit : Limit) (length : Nat) : Except Error (List UInt8) :=
  if length ≤ 65535 then .ok (bytesOfU16 (UInt16.ofNat length)) else .error (.overflow limit)

/-- The bytes of a 32-bit length, if it fits. -/
def encodeLength32 (limit : Limit) (length : Nat) : Except Error (List UInt8) :=
  if length ≤ 4294967295 then .ok (bytesOfU32 (UInt32.ofNat length))
  else .error (.overflow limit)

/-- The bytes of several values in a row. -/
def encodeAll (encode : α → Except Error (List UInt8)) (values : List α) :
    Except Error (List UInt8) :=
  List.flatten <$> values.mapM encode

/-- The number of bytes of several values in a row, given that of each. -/
def lengthAll (length : α → Nat) : List α → Nat
  | [] => 0
  | value :: values => length value + lengthAll length values

/-- A text, behind the length of its modified UTF-8 form. -/
def text : Codec String where
  decode := do
    let length ← u16.decode
    let bytes ← Decoder.take length.toNat
    match ModifiedUtf8.decode bytes with
    | .ok s => pure s
    | .error fault => throw (.text fault)
  encode s := do
    let bytes := ModifiedUtf8.encode s
    let length ← encodeLength16 .stringLength bytes.length
    pure (length ++ bytes)

/-- Entries behind their 16-bit count. `limit` names the count in messages. -/
def counted (limit : Limit) (entry : Codec α) : Codec (List α) where
  decode := do
    let count ← u16.decode
    Decoder.times entry.decode [] count.toNat
  encode entries := do
    let count ← encodeLength16 limit entries.length
    let bytes ← encodeAll entry.encode entries
    pure (count ++ bytes)

/-- A table: entries behind their count. -/
def table (entry : Codec α) : Codec (List α) := counted .tableLength entry

end Codec

end JvmClass
