import JvmClass.Code.Gap

/-!
# Cursors

A cursor walks over the instructions of a body and edits them. It stands at the
next instruction, or at the end of the code, and stays with its instruction
when bytes are inserted. An edit that fails leaves body and cursor as they
were.
-/

namespace JvmClass

/-- A body with a place in it. -/
structure Cursor where
  /-- The body. -/
  code : Code
  /-- The position of the next instruction. -/
  position : Nat

namespace Cursor

/-- The cursor at the start of a body. -/
def ofCode (code : Code) : Cursor := ⟨code, 0⟩

/-- Whether there is a next instruction. -/
def hasNext (cursor : Cursor) : Bool := cursor.position < cursor.code.bytes.size

/-- Move to a position. -/
def moveTo (position : Nat) : Edit Cursor Unit := modify fun c => { c with position }

/-- The position of the next instruction, which the cursor then passes. -/
def next : Edit Cursor Nat := do
  let cursor ← get
  let length ← Bytecode.instructionLength cursor.code.bytes cursor.position
  set { cursor with position := cursor.position + length }
  pure cursor.position

/-! ## Operands -/

section Operands

variable (cursor : Cursor) (position : Nat)

/-- A number at a position, which has to lie within the code. -/
def require {α : Type} (read : Bytecode → Nat → Option α) : Except Error α :=
  match read cursor.code.bytes position with
  | some a => .ok a
  | none => .error (.malformed (.codeIndex position))

/-- The byte at a position. -/
def byteAt : Except Error UInt8 := cursor.require position fun code p => code[p]?

/-- The byte at a position, as a signed number. -/
def signedByteAt : Except Error Int8 := UInt8.toInt8 <$> cursor.byteAt position

/-- The two bytes at a position. -/
def u16At : Except Error UInt16 := cursor.require position Bytecode.u16At?

/-- The two bytes at a position, as a signed number. -/
def i16At : Except Error Int16 := UInt16.toInt16 <$> cursor.u16At position

/-- The four bytes at a position, as a signed number. -/
def i32At : Except Error Int := cursor.require position Bytecode.i32At?

end Operands

/-! ## Edits -/

/-- Change the body, with the cursor where it is. -/
def onCode (f : Code → Except Error Code) : Edit Cursor Unit := do
  let cursor ← get
  let code ← f cursor.code
  set { cursor with code }

/-- Replace bytes at a position. -/
def write (position : Nat) (bytes : List UInt8) : Edit Cursor Unit :=
  onCode fun code => code.write position bytes

/-- Replace the byte at a position. -/
def writeByte (position : Nat) (value : UInt8) : Edit Cursor Unit := write position [value]

/-- Replace the two bytes at a position. -/
def writeU16 (position : Nat) (value : UInt16) : Edit Cursor Unit :=
  write position (Codec.bytesOfU16 value)

/-- Replace the four bytes at a position. -/
def writeI32 (position : Nat) (value : Int32) : Edit Cursor Unit :=
  write position (Codec.bytesOfU32 value.toUInt32)

/-- Insert a gap before the instruction at a position. -/
def insertGap (position length : Nat) (exclusive : Bool) : Edit Cursor Shift := do
  let cursor ← get
  let (s, code) ← cursor.code.insertGap position length exclusive
  set (Cursor.mk code (s.target cursor.position))
  pure s

/-- Insert bytes before the instruction at a position, and give the position
at which they lie. -/
def insertBytes (position : Nat) (bytes : List UInt8) : Edit Cursor Nat := do
  let cursor ← get
  let (s, code) ← cursor.code.insertBytes position bytes
  set (Cursor.mk code (s.target cursor.position))
  pure s.position

/-- Put handlers in front of the exception table, moved by an offset. -/
def insertHandlers (handlers : List Handler) (offset : Nat) : Edit Cursor Unit :=
  onCode fun code => code.insertHandlers handlers offset

end Cursor

end JvmClass
