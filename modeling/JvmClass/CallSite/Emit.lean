import JvmClass.Binary.Codec
import JvmClass.Descriptor.Basic
import JvmClass.Instruction.Opcode

/-!
# Emitting instructions

The shortest forms of the instructions that move values between local
variables and the operand stack, and the dynamic call.
-/

namespace JvmClass

/-- The shortest instruction with a slot operand: four slots have opcodes of
their own, up to slot 255 one byte is enough, and a prefix makes room for two
bytes. -/
def emitSlot (short normal : UInt8) (slot : UInt16) : List UInt8 :=
  if slot < 4 then [short + slot.toUInt8]
  else if slot ≤ 255 then [normal, slot.toUInt8]
  else Opcode.wide :: normal :: Codec.bytesOfU16 slot

/-- Load a value from a slot. -/
def Family.load (family : Family) (slot : UInt16) : List UInt8 :=
  emitSlot family.shortLoadOpcode family.loadOpcode slot

/-- Store a value into a slot. -/
def Family.store (family : Family) (slot : UInt16) : List UInt8 :=
  emitSlot family.shortStoreOpcode family.storeOpcode slot

/-- Load a value of a type from a slot. -/
def Descriptor.load (d : Descriptor) (slot : UInt16) : List UInt8 := d.family.load slot

/-- Store a value of a type into a slot. -/
def Descriptor.store (d : Descriptor) (slot : UInt16) : List UInt8 := d.family.store slot

/-- Call the call site at an index. -/
def emitDynamicCall (callSite : UInt16) : List UInt8 :=
  Opcode.invokeDynamic :: Codec.bytesOfU16 callSite ++ [0, 0]

end JvmClass
