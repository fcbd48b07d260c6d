import JvmClass.Binary.Codec

/-!
# Access flags

The access and property flags of classes, fields, methods and inner classes.
Every bit has a meaning, and some bits have two, which depend on where the
flags stand.
-/

namespace JvmClass

/-- A set of access flags. -/
structure AccessFlags where
  /-- The bits of the set. -/
  bits : UInt16
  deriving DecidableEq, Repr

namespace AccessFlags

/-- Every flag by name, in the order of the bits. -/
def table : List (String × UInt16) :=
  [("PUBLIC", 0x0001), ("PRIVATE", 0x0002), ("PROTECTED", 0x0004), ("STATIC", 0x0008),
    ("FINAL", 0x0010), ("SUPER", 0x0020), ("SYNCHRONIZED", 0x0020), ("VOLATILE", 0x0040),
    ("BRIDGE", 0x0040), ("VARARGS", 0x0080), ("TRANSIENT", 0x0080), ("NATIVE", 0x0100),
    ("INTERFACE", 0x0200), ("ABSTRACT", 0x0400), ("STRICT", 0x0800), ("SYNTHETIC", 0x1000),
    ("ANNOTATION", 0x2000), ("ENUM", 0x4000), ("MODULE", 0x8000)]

/-- No flag. -/
def none : AccessFlags := ⟨0⟩

/-- The flags of a new class: public, with the usual treatment of super calls. -/
def ofNewClass : AccessFlags := ⟨0x0021⟩

/-- Whether all bits of a mask are set. -/
def contains (flags : AccessFlags) (mask : UInt16) : Bool := flags.bits &&& mask == mask

/-- The names of the flags in a set, in the order of the table. -/
def names (flags : AccessFlags) : List String :=
  (table.filter fun flag => flags.contains flag.2).map Prod.fst

/-- Whether the owner of the flags is private. -/
def isPrivate (flags : AccessFlags) : Bool := flags.contains 0x0002

/-- Whether the owner of the flags is static. -/
def isStatic (flags : AccessFlags) : Bool := flags.contains 0x0008

/-- Flags are written as their bits. -/
def codec : Codec AccessFlags := Codec.u16.convert mk bits

end AccessFlags

end JvmClass
