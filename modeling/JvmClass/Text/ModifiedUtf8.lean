/-!
# Modified UTF-8

Class files hold text as modified UTF-8. Each 16-bit unit of the UTF-16 form
of a text is written on its own, in one to three bytes: zero takes two bytes,
so that no byte of an encoded text is zero, and a character above `U+FFFF`
takes the two groups of its surrogates. Decoding first splits the bytes into
units and then pairs the surrogates; it reports the first fault of the first
step before any fault of the second. Bytes that are plain ASCII say the same in
both forms and are not split.
-/

namespace JvmClass.ModifiedUtf8

/-- Why a run of bytes is not the modified UTF-8 form of a text. -/
inductive Fault where
  /-- The last group starts well and runs past the end of the bytes. -/
  | partialCharacter
  /-- The group at this offset has no valid first byte, or a bad later byte. -/
  | aroundByte (offset : Nat)
  /-- The group at this offset is a surrogate without its other half. -/
  | unpairedSurrogate (offset : Nat)
  deriving DecidableEq

/-- The text that describes a fault. -/
def Fault.message : Fault → String
  | .partialCharacter => "Malformed Input: Partial character at end"
  | .aroundByte offset => s!"Malformed Input around byte: {offset}"
  | .unpairedSurrogate offset => s!"Unpaired surrogate around byte: {offset}"

/-! ## UTF-16 units -/

/-- A unit that opens a surrogate pair. -/
def isHighSurrogate (unit : UInt16) : Bool := 0xD800 ≤ unit && unit ≤ 0xDBFF

/-- A unit that closes a surrogate pair. -/
def isLowSurrogate (unit : UInt16) : Bool := 0xDC00 ≤ unit && unit ≤ 0xDFFF

/-- The UTF-16 units of one character: itself, or a surrogate pair. -/
def unitsOfChar (c : Char) : List UInt16 :=
  if c.toNat < 0x10000 then [UInt16.ofNat c.toNat]
  else
    [UInt16.ofNat (0xD800 + (c.toNat - 0x10000) / 0x400),
      UInt16.ofNat (0xDC00 + (c.toNat - 0x10000) % 0x400)]

/-- The UTF-16 form of a text. -/
def utf16 (text : String) : List UInt16 := text.toList.flatMap unitsOfChar

/-- The character of a surrogate pair. -/
def pairedChar (high low : UInt16) : Char :=
  Char.ofNat (0x10000 + (high.toNat - 0xD800) * 0x400 + (low.toNat - 0xDC00))

/-! ## Encoding -/

/-- The group of bytes of one unit: the shortest of the three forms, except
that zero takes two bytes. -/
def encodeUnit (unit : UInt16) : List UInt8 :=
  let n := unit.toNat
  if 0 < n ∧ n < 0x80 then [UInt8.ofNat n]
  else if n < 0x800 then [UInt8.ofNat (0xC0 + n / 0x40), UInt8.ofNat (0x80 + n % 0x40)]
  else
    [UInt8.ofNat (0xE0 + n / 0x1000), UInt8.ofNat (0x80 + n / 0x40 % 0x40),
      UInt8.ofNat (0x80 + n % 0x40)]

/-- The modified UTF-8 form of a text. Every text has one. -/
def encode (text : String) : List UInt8 := (utf16 text).flatMap encodeUnit

/-! ## Decoding -/

/-- What the first byte of a group says about it. -/
inductive Lead where
  /-- The group is this byte. -/
  | one
  /-- One more byte follows. -/
  | two
  /-- Two more bytes follow. -/
  | three
  /-- No group starts with this byte. -/
  | invalid
  deriving DecidableEq

/-- Classify the first byte of a group. Zero starts none. -/
def lead (b : UInt8) : Lead :=
  if 0x01 ≤ b ∧ b ≤ 0x7F then .one
  else if 0xC0 ≤ b ∧ b ≤ 0xDF then .two
  else if 0xE0 ≤ b ∧ b ≤ 0xEF then .three
  else .invalid

/-- The bytes that may follow the first byte of a group. -/
def isContinuation (b : UInt8) : Bool := 0x80 ≤ b && b ≤ 0xBF

/-- The unit of a group of two bytes. Longer forms than needed are accepted. -/
def unitOfTwo (a b : UInt8) : UInt16 :=
  UInt16.ofNat (a.toNat % 0x20 * 0x40 + b.toNat % 0x40)

/-- The unit of a group of three bytes. -/
def unitOfThree (a b c : UInt8) : UInt16 :=
  UInt16.ofNat (a.toNat % 0x10 * 0x1000 + b.toNat % 0x40 * 0x40 + c.toNat % 0x40)

/-- Split bytes into units, each with the offset of its group. `offset` is the
position of the given bytes; `done` holds the units before it, last first. -/
def splitUnits (offset : Nat) (done : List (Nat × UInt16)) :
    List UInt8 → Except Fault (List (Nat × UInt16))
  | [] => .ok done.reverse
  | a :: rest =>
    match lead a with
    | .one => splitUnits (offset + 1) ((offset, a.toUInt16) :: done) rest
    | .two =>
      match rest with
      | b :: rest =>
        if isContinuation b then
          splitUnits (offset + 2) ((offset, unitOfTwo a b) :: done) rest
        else .error (.aroundByte offset)
      | [] => .error .partialCharacter
    | .three =>
      match rest with
      | b :: c :: rest =>
        if isContinuation b && isContinuation c then
          splitUnits (offset + 3) ((offset, unitOfThree a b c) :: done) rest
        else .error (.aroundByte offset)
      | _ => .error .partialCharacter
    | .invalid => .error (.aroundByte offset)

/-- Turn units into characters, pairing surrogates. `text` holds what the
units before the given ones say. -/
def joinUnits (text : String) : List (Nat × UInt16) → Except Fault String
  | [] => .ok text
  | (offset, unit) :: rest =>
    if isHighSurrogate unit then
      match rest with
      | (_, low) :: rest =>
        if isLowSurrogate low then joinUnits (text.push (pairedChar unit low)) rest
        else .error (.unpairedSurrogate offset)
      | [] => .error (.unpairedSurrogate offset)
    else if isLowSurrogate unit then .error (.unpairedSurrogate offset)
    else joinUnits (text.push (Char.ofNat unit.toNat)) rest

/-- The text of a run of modified UTF-8 bytes that is read unit by unit, or the
first fault in it. -/
def decodeUnits (bytes : List UInt8) : Except Fault String := do
  joinUnits "" (← splitUnits 0 [] bytes)

/-- Whether every byte is an ASCII character other than zero. -/
def isAscii (bytes : List UInt8) : Bool := bytes.all fun b => b != 0 && b < 0x80

/-- The text whose characters are the bytes themselves. -/
def asciiText (bytes : List UInt8) : String :=
  String.ofList (bytes.map fun b => Char.ofNat b.toNat)

/-- The text of a run of modified UTF-8 bytes, or the first fault in it. ASCII is
taken over byte by byte, everything else is read unit by unit. -/
def decode (bytes : List UInt8) : Except Fault String :=
  if isAscii bytes then .ok (asciiText bytes) else decodeUnits bytes

end JvmClass.ModifiedUtf8
