import JvmClass.Access
import JvmClass.Attribute.Format

/-!
# Fields

A field has a name, a descriptor and attributes. Its indices refer to the pool
of the class it belongs to.
-/

namespace JvmClass

/-- A field of a class. -/
structure Field where
  /-- Its access flags. -/
  flags : AccessFlags
  /-- The index of its name. -/
  nameIndex : UInt16
  /-- The index of its descriptor. -/
  descriptorIndex : UInt16
  /-- Its attributes. -/
  attributes : List Attribute
  deriving DecidableEq

namespace Field

/-- A field without attributes. -/
def create (flags : AccessFlags) (name descriptor : String) : Edit ConstantPool Field := do
  let nameIndex ← ConstantPool.internText name
  let descriptorIndex ← ConstantPool.internText descriptor
  pure { flags, nameIndex, descriptorIndex, attributes := [] }

/-- Reads a field. -/
def decode (pool : ConstantPool) : Decoder Field := do
  let flags ← AccessFlags.codec.decode
  let nameIndex ← Codec.u16.decode
  let descriptorIndex ← Codec.u16.decode
  let attributes ← Attribute.decodeAll pool
  pure { flags, nameIndex, descriptorIndex, attributes }

/-- The bytes of a field. -/
def encode (f : Field) : Except Error (List UInt8) := do
  let attributes ← Attribute.encodeAll f.attributes
  pure (Codec.bytesOfU16 f.flags.bits ++ Codec.bytesOfU16 f.nameIndex ++
    Codec.bytesOfU16 f.descriptorIndex ++ attributes)

/-- The name of a field. -/
def name (f : Field) (pool : ConstantPool) : Except Error String := pool.text f.nameIndex

/-- The descriptor of a field. -/
def descriptor (f : Field) (pool : ConstantPool) : Except Error String :=
  pool.text f.descriptorIndex

/-- Add an attribute in place of all others with its name. -/
def addAttribute (f : Field) (pool : ConstantPool) (a : Attribute) : Except Error Field := do
  let attributes ← Attribute.replaceByName pool a f.attributes
  pure { f with attributes }

end Field

end JvmClass
