import JvmClass.Binary.Codec
import JvmClass.Code.Shift

/-!
# Stack maps

A stack map gives the types of locals and operands at some positions of a
body. A frame states its position as the distance to the frame before it, less
one, and most frames only say how they differ from that frame. Frames keep the
form in which they were read; a frame changes to its extended form only when
its distance no longer fits.
-/

namespace JvmClass

/-- The type of a local variable or operand. -/
inductive VerificationType where
  /-- Unusable. -/
  | top
  /-- An integer of up to 32 bits. -/
  | integer
  /-- A single precision number. -/
  | float
  /-- A double precision number. -/
  | double
  /-- A 64-bit integer. -/
  | long
  /-- The null reference. -/
  | null
  /-- The object under construction, before its super constructor is called. -/
  | uninitializedThis
  /-- An object of the class at an index. -/
  | object (classIndex : UInt16)
  /-- The object created by the instruction at a position. -/
  | uninitialized (position : UInt16)
  deriving DecidableEq, Repr

namespace VerificationType

/-- A type is a tag byte, followed by a number for the last two types. -/
def codec : Codec VerificationType where
  decode := do
    let tag ← Codec.u8.decode
    match tag with
    | 0 => pure .top
    | 1 => pure .integer
    | 2 => pure .float
    | 3 => pure .double
    | 4 => pure .long
    | 5 => pure .null
    | 6 => pure .uninitializedThis
    | 7 => .object <$> Codec.u16.decode
    | 8 => .uninitialized <$> Codec.u16.decode
    | _ => throw (.malformed (.tag tag.toNat))
  encode
    | .top => .ok [0]
    | .integer => .ok [1]
    | .float => .ok [2]
    | .double => .ok [3]
    | .long => .ok [4]
    | .null => .ok [5]
    | .uninitializedThis => .ok [6]
    | .object i => .ok (7 :: Codec.bytesOfU16 i)
    | .uninitialized position => .ok (8 :: Codec.bytesOfU16 position)

/-- The number of bytes of a type. -/
def length : VerificationType → Nat
  | .object _ | .uninitialized _ => 3
  | _ => 1

/-- The type after bytes are inserted into the body. The instruction that
created an object moves with the code. -/
def shift (s : Shift) : VerificationType → VerificationType
  | .uninitialized position => .uninitialized (UInt16.ofNat (s.start position.toNat))
  | type => type

end VerificationType

/-- The bytes of several types. -/
def VerificationType.totalLength (types : List VerificationType) : Nat :=
  Codec.lengthAll VerificationType.length types

/-- A frame of a stack map. -/
inductive StackFrame where
  /-- The same locals and no operand. -/
  | same (delta : UInt16)
  /-- The same locals and one operand. -/
  | oneOperand (delta : UInt16) (operand : VerificationType)
  /-- The same locals and one operand, at any distance. -/
  | oneOperandExtended (delta : UInt16) (operand : VerificationType)
  /-- The last one to three locals are gone. -/
  | chop (delta : UInt16) (count : UInt8)
  /-- The same locals and no operand, at any distance. -/
  | sameExtended (delta : UInt16)
  /-- One to three more locals. -/
  | append (delta : UInt16) (locals : List VerificationType)
  /-- All locals and operands. -/
  | full (delta : UInt16) (locals operands : List VerificationType)
  deriving DecidableEq, Repr

namespace StackFrame

/-- The distance to the frame before, less one. -/
def delta : StackFrame → UInt16
  | .same delta | .oneOperand delta _ | .oneOperandExtended delta _ | .chop delta _
  | .sameExtended delta | .append delta _ | .full delta _ _ => delta

/-- The frame at another distance. A compact form that cannot hold it becomes
the extended one. -/
def withDelta (delta : UInt16) : StackFrame → StackFrame
  | .same _ => if delta ≤ 63 then .same delta else .sameExtended delta
  | .oneOperand _ operand =>
    if delta ≤ 63 then .oneOperand delta operand else .oneOperandExtended delta operand
  | .oneOperandExtended _ operand => .oneOperandExtended delta operand
  | .chop _ count => .chop delta count
  | .sameExtended _ => .sameExtended delta
  | .append _ locals => .append delta locals
  | .full _ locals operands => .full delta locals operands

/-- Change the types of a frame by an effect, locals before operands. -/
def traverseTypes {m : Type → Type} [Monad m] (f : VerificationType → m VerificationType) :
    StackFrame → m StackFrame
  | .same delta => pure (.same delta)
  | .oneOperand delta operand => .oneOperand delta <$> f operand
  | .oneOperandExtended delta operand => .oneOperandExtended delta <$> f operand
  | .chop delta count => pure (.chop delta count)
  | .sameExtended delta => pure (.sameExtended delta)
  | .append delta locals => .append delta <$> locals.mapM f
  | .full delta locals operands => do
    let locals ← locals.mapM f
    let operands ← operands.mapM f
    pure (.full delta locals operands)

/-- Change the types of a frame. -/
def mapTypes (f : VerificationType → VerificationType) : StackFrame → StackFrame
  | .same delta => .same delta
  | .oneOperand delta operand => .oneOperand delta (f operand)
  | .oneOperandExtended delta operand => .oneOperandExtended delta (f operand)
  | .chop delta count => .chop delta count
  | .sameExtended delta => .sameExtended delta
  | .append delta locals => .append delta (locals.map f)
  | .full delta locals operands => .full delta (locals.map f) (operands.map f)

/-- The number of bytes of a frame. -/
def length : StackFrame → Nat
  | .same _ => 1
  | .oneOperand _ operand => 1 + operand.length
  | .oneOperandExtended _ operand => 3 + operand.length
  | .chop _ _ | .sameExtended _ => 3
  | .append _ locals => 3 + VerificationType.totalLength locals
  | .full _ locals operands =>
    7 + VerificationType.totalLength locals + VerificationType.totalLength operands

/-- Reads a frame. The first byte gives its form, and in the compact forms the
distance as well. -/
def decode : Decoder StackFrame := do
  let type ← Codec.u8.decode
  if type ≤ 63 then pure (.same type.toUInt16)
  else if type ≤ 127 then .oneOperand (type - 64).toUInt16 <$> VerificationType.codec.decode
  else if type ≤ 246 then throw (.malformed (.frameType type))
  else
    let delta ← Codec.u16.decode
    if type = 247 then .oneOperandExtended delta <$> VerificationType.codec.decode
    else if type ≤ 250 then pure (.chop delta (251 - type))
    else if type = 251 then pure (.sameExtended delta)
    else if type ≤ 254 then
      .append delta <$> Decoder.times VerificationType.codec.decode [] (type - 251).toNat
    else do
      let locals ← (Codec.table VerificationType.codec).decode
      let operands ← (Codec.table VerificationType.codec).decode
      pure (.full delta locals operands)

/-- The bytes of a frame. Its form must suit its contents. -/
def encode : StackFrame → Except Error (List UInt8)
  | .same delta => .ok [UInt8.ofNat delta.toNat]
  | .oneOperand delta operand => do
    let operand ← VerificationType.codec.encode operand
    pure ((64 + UInt8.ofNat delta.toNat) :: operand)
  | .oneOperandExtended delta operand => do
    let operand ← VerificationType.codec.encode operand
    pure (247 :: Codec.bytesOfU16 delta ++ operand)
  | .chop delta count => .ok ((251 - count) :: Codec.bytesOfU16 delta)
  | .sameExtended delta => .ok (251 :: Codec.bytesOfU16 delta)
  | .append delta locals => do
    let bytes ← Codec.encodeAll VerificationType.codec.encode locals
    pure ((251 + UInt8.ofNat locals.length) :: Codec.bytesOfU16 delta ++ bytes)
  | .full delta locals operands => do
    let locals ← (Codec.table VerificationType.codec).encode locals
    let operands ← (Codec.table VerificationType.codec).encode operands
    pure (255 :: Codec.bytesOfU16 delta ++ locals ++ operands)

/-- The binary form of a frame. -/
def codec : Codec StackFrame := ⟨decode, encode⟩

end StackFrame

/-- The frames of a stack map, in the order of their positions. -/
abbrev StackMap := List StackFrame

namespace StackMap

/-- The binary form of a stack map. -/
def codec : Codec StackMap := Codec.table StackFrame.codec

/-- The number of bytes of a stack map. -/
def length (frames : StackMap) : Nat := 2 + Codec.lengthAll StackFrame.length frames

/-- The position of a frame from the position of the frame before it. -/
def offsetAfter (before : Option Nat) (delta : UInt16) : Nat :=
  match before with
  | none => delta.toNat
  | some position => position + delta.toNat + 1

/-- The distance of a position from the position of the frame before it. -/
def deltaAfter (before : Option Nat) (position : Nat) : UInt16 :=
  match before with
  | none => UInt16.ofNat position
  | some previous => UInt16.ofNat (position - previous - 1)

/-- The positions of frames, given the position before them. `done` holds the
earlier positions, last first. -/
def offsetsAfter (before : Option Nat) (done : List Nat) : StackMap → List Nat
  | [] => done.reverse
  | frame :: frames =>
    let offset := offsetAfter before frame.delta
    offsetsAfter (some offset) (offset :: done) frames

/-- The positions that the frames describe. -/
def offsets (frames : StackMap) : List Nat := offsetsAfter none [] frames

/-- The frames after bytes are inserted, given the position before them as it
was and as it is now. `done` holds the earlier frames, last first. -/
def shiftAfter (s : Shift) (old new : Option Nat) (done : StackMap) : StackMap → StackMap
  | [] => done.reverse
  | frame :: frames =>
    let offset := offsetAfter old frame.delta
    let shifted := s.target offset
    let frame := (frame.withDelta (deltaAfter new shifted)).mapTypes (VerificationType.shift s)
    shiftAfter s (some offset) (some shifted) (frame :: done) frames

/-- The stack map after bytes are inserted into the body. -/
def shift (s : Shift) (frames : StackMap) : StackMap := shiftAfter s none none [] frames

end StackMap

end JvmClass
