import JvmClass.Member.Field
import JvmClass.Member.Method

/-!
# Class files

A class file holds a class with its pool, its members and its attributes.
Reading a class file and writing it again gives the same bytes.
-/

namespace JvmClass

/-- A class file. -/
structure ClassFile where
  /-- The minor version of its format. -/
  minorVersion : UInt16
  /-- The major version of its format. -/
  majorVersion : UInt16
  /-- Its constant pool. -/
  pool : ConstantPool
  /-- Its access flags. -/
  flags : AccessFlags
  /-- The index of the class itself. -/
  thisClass : UInt16
  /-- The index of its superclass. Zero for the root of all classes. -/
  superClass : UInt16
  /-- The indices of its interfaces. -/
  interfaces : List UInt16
  /-- Its fields. -/
  fields : List Field
  /-- Its methods. -/
  methods : List Method
  /-- Its attributes. -/
  attributes : List Attribute

namespace ClassFile

/-- An empty public class that extends `superclass`. -/
def create (id : Nat) (name superclass : String) (majorVersion : UInt16) :
    Except Error ClassFile := do
  let pool ← ConstantPool.ofClass id name
  match (ConstantPool.internClass superclass).runOn pool with
  | (.error e, _) => throw e
  | (.ok superClass, pool) =>
    pure
      { minorVersion := 0
        majorVersion
        pool
        flags := .ofNewClass
        thisClass := pool.thisClass
        superClass
        interfaces := []
        fields := []
        methods := []
        attributes := [] }

/-- The same class with a pool of its own. -/
def withPoolId (c : ClassFile) (id : Nat) : ClassFile := { c with pool := c.pool.withId id }

/-! ## Binary form -/

/-- The number that every class file starts with. -/
def magic : UInt32 := 0xCAFEBABE

/-- Reads a class file. -/
def decode (id : Nat) : Decoder ClassFile := do
  let found ← Codec.u32.decode
  if found ≠ magic then throw (.malformed (.magic found))
  let minorVersion ← Codec.u16.decode
  let majorVersion ← Codec.u16.decode
  let pool ← ConstantPool.decode id
  let flags ← AccessFlags.codec.decode
  let thisClass ← Codec.u16.decode
  let pool := { pool with thisClass }
  let superClass ← Codec.u16.decode
  let interfaces ← (Codec.table Codec.u16).decode
  let fieldCount ← Codec.u16.decode
  let fields ← Decoder.times (Field.decode pool) [] fieldCount.toNat
  let methodCount ← Codec.u16.decode
  let methods ← Decoder.times (Method.decode pool) [] methodCount.toNat
  let attributes ← Attribute.decodeAll pool
  pure
    { minorVersion, majorVersion, pool, flags, thisClass, superClass, interfaces, fields,
      methods, attributes }

/-- The bytes of a class file. -/
def encode (c : ClassFile) : Except Error (List UInt8) := do
  let pool ← c.pool.encode
  let interfaces ← (Codec.table Codec.u16).encode c.interfaces
  let fieldCount ← Codec.encodeLength16 .fieldCount c.fields.length
  let fields ← Codec.encodeAll Field.encode c.fields
  let methodCount ← Codec.encodeLength16 .methodCount c.methods.length
  let methods ← Codec.encodeAll Method.encode c.methods
  let attributes ← Attribute.encodeAll c.attributes
  pure (Codec.bytesOfU32 magic ++ Codec.bytesOfU16 c.minorVersion ++
    Codec.bytesOfU16 c.majorVersion ++ pool ++ Codec.bytesOfU16 c.flags.bits ++
    Codec.bytesOfU16 c.thisClass ++ Codec.bytesOfU16 c.superClass ++ interfaces ++
    fieldCount ++ fields ++ methodCount ++ methods ++ attributes)

/-! ## Names -/

/-- The internal name of the class. -/
def name (c : ClassFile) : Except Error String := c.pool.className c.thisClass

/-- The internal name of the superclass, if there is one. -/
def superClassName (c : ClassFile) : Except Error (Option String) :=
  if c.superClass = 0 then .ok none else some <$> c.pool.className c.superClass

/-- The internal names of the interfaces. -/
def interfaceNames (c : ClassFile) : Except Error (List String) :=
  c.pool.classNames c.interfaces

/-- The position of the first method with a name and descriptor. -/
def methodIndex? (c : ClassFile) (name descriptor : String) : Option Nat :=
  c.methods.findIdx? fun m => m.hasSignature c.pool name descriptor

/-- The first method with a name and descriptor. -/
def method? (c : ClassFile) (name descriptor : String) : Option Method :=
  c.methods.find? fun m => m.hasSignature c.pool name descriptor

/-! ## Attributes -/

/-- Add an attribute in place of all others with its name. -/
def addAttribute (c : ClassFile) (a : Attribute) : Except Error ClassFile := do
  let attributes ← Attribute.replaceByName c.pool a c.attributes
  pure { c with attributes }

/-- The table of bootstrap methods. -/
def bootstrapMethods? (c : ClassFile) : Option (List BootstrapMethod) :=
  match (Attribute.findByKind? .bootstrapMethods c.attributes).map Attribute.body with
  | some (.data (.bootstrapMethods table)) => some table
  | _ => none

end ClassFile

end JvmClass
