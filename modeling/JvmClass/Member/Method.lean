import JvmClass.Access
import JvmClass.Attribute.Format
import JvmClass.Code.Constructor
import JvmClass.Code.Copy

/-!
# Methods

A method has a name, a descriptor and attributes, of which its body is one. Its
indices refer to the pool of the class it belongs to, which every operation
that needs names is given. A method has no attribute list until it is read or
its first attribute is added.
-/

namespace JvmClass

/-- A method of a class. -/
structure Method where
  /-- Its access flags. -/
  flags : AccessFlags
  /-- The index of its name. -/
  nameIndex : UInt16
  /-- The index of its descriptor. -/
  descriptorIndex : UInt16
  /-- Its attributes, if it has a list of them. -/
  attributes : Option (List Attribute)
  deriving DecidableEq

namespace Method

/-! ## Creating, reading and writing -/

/-- A method without flags and attributes. -/
def create (name descriptor : String) : Edit ConstantPool Method := do
  let nameIndex ← ConstantPool.internText name
  let descriptorIndex ← ConstantPool.internText descriptor
  pure { flags := .none, nameIndex, descriptorIndex, attributes := none }

/-- Reads a method. -/
def decode (pool : ConstantPool) : Decoder Method := do
  let flags ← AccessFlags.codec.decode
  let nameIndex ← Codec.u16.decode
  let descriptorIndex ← Codec.u16.decode
  let attributes ← Attribute.decodeAll pool
  pure { flags, nameIndex, descriptorIndex, attributes := some attributes }

/-- The attributes of a method, none if it has no list. -/
def attributeList (m : Method) : List Attribute := m.attributes.getD []

/-- The bytes of a method. -/
def encode (m : Method) : Except Error (List UInt8) := do
  let attributes ← Attribute.encodeAll m.attributeList
  pure (Codec.bytesOfU16 m.flags.bits ++ Codec.bytesOfU16 m.nameIndex ++
    Codec.bytesOfU16 m.descriptorIndex ++ attributes)

/-! ## Names -/

section Names

variable (m : Method) (pool : ConstantPool)

/-- The name of a method. -/
def name : Except Error String := pool.text m.nameIndex

/-- The descriptor of a method. -/
def descriptor : Except Error String := pool.text m.descriptorIndex

/-- Whether a method is a constructor. -/
def isConstructor : Except Error Bool := do
  pure ((← m.name pool) == constructorName)

/-- Whether a method is a static initializer. -/
def isStaticInitializer : Except Error Bool := do
  pure ((← m.name pool) == staticInitializerName)

/-- Whether a method is neither a constructor nor a static initializer. -/
def isOrdinary : Except Error Bool := do
  let name ← m.name pool
  pure (name != constructorName && name != staticInitializerName)

/-- Whether a method has a name and descriptor. -/
def hasSignature (name descriptor : String) : Bool :=
  match m.name pool, m.descriptor pool with
  | .ok n, .ok d => n == name && d == descriptor
  | _, _ => false

end Names

/-- Give a method another name. -/
def rename (m : Method) (name : String) : Edit ConstantPool Method := do
  let nameIndex ← ConstantPool.internText name
  pure { m with nameIndex }

/-- Give a method another descriptor. One that it has already is not interned
again. -/
def withDescriptor (m : Method) (descriptor : String) : Edit ConstantPool Method := do
  let found ← m.descriptor (← get)
  if found = descriptor then pure m
  else
    let descriptorIndex ← ConstantPool.internText descriptor
    pure { m with descriptorIndex }

/-! ## Attributes -/

/-- The first attribute of a kind. -/
def attribute? (m : Method) (kind : AttributeKind) : Option Attribute :=
  Attribute.findByKind? kind m.attributeList

/-- Add an attribute in place of all others with its name. -/
def addAttribute (m : Method) (pool : ConstantPool) (a : Attribute) : Except Error Method := do
  let attributes ← Attribute.replaceByName pool a m.attributeList
  pure { m with attributes := some attributes }

/-- The method without its attributes of a kind. -/
def removeKind (m : Method) (kind : AttributeKind) : Method :=
  { m with attributes := m.attributes.map (Attribute.removeByKind kind) }

/-- The body of a method. -/
def code? (m : Method) : Option Code :=
  match (m.attribute? .code).map Attribute.body with
  | some (.code code) => some code
  | _ => none

/-- Change the body of a method, if it has one. -/
def withCode (m : Method) (code : Code) : Method :=
  { m with
    attributes :=
      m.attributes.map (Attribute.modifyFirst .code fun a => { a with body := .code code }) }

/-- The checked exceptions of a method, by index. -/
def exceptions? (m : Method) : Option (List UInt16) :=
  match (m.attribute? .exceptions).map Attribute.body with
  | some (.data (.exceptions classes)) => some classes
  | _ => none

/-- Put a payload at the end of the attributes in place of all others of its
kind. The old ones are gone even if the name of the kind does not fit the pool
any more; the method is left behind in either case. -/
def replaceKind (body : AttributeBody) : Edit (ConstantPool × Method) Unit := ExceptT.mk
  fun (pool, m) =>
    let m := m.removeKind body.kind
    match (Attribute.ofBody body).runOn pool with
    | (.ok a, pool) => (.ok (), pool, { m with attributes := some (m.attributeList ++ [a]) })
    | (.error e, pool) => (.error e, pool, m)

/-- The source line of the instruction at a position, if it is known. -/
def lineAt? (m : Method) (position : Nat) : Option UInt16 := do
  let code ← m.code?
  let table ← code.lineNumbers?
  LineNumber.lineAt? table position

/-! ## Constructors and copies -/

/-- Make a constructor call the constructor of another superclass, under the
same name and descriptor. Methods that are no constructors and constructors
that call one of their own class stay as they are. -/
def withSuperclass (m : Method) (superclass : String) : Edit ConstantPool Method := do
  let pool ← get
  if !(← (m.isConstructor pool : Except Error Bool)) then return m
  match m.code? with
  | none => pure m
  | some code =>
    match (Cursor.skipConstructor pool .superclass).runOn (.ofCode code) with
    | (.error e, _) => throw e
    | (.ok none, _) => pure m
    | (.ok (some position), cursor) => do
      let old ← cursor.u16At (position + 1)
      let (_, _, nameAndType) ← pool.memberIndices (some .method) old
      let owner ← ConstantPool.internClass superclass
      let new ← ConstantPool.intern (.member .method owner nameAndType)
      let code ← code.write (position + 1) (Codec.bytesOfU16 new)
      pure (m.withCode code)

/-- Copy a method to the class of the pool under edit, under another name. Only
its checked exceptions and its body are copied along. -/
def copy (m : Method) (source : ConstantPool) (names : Renaming) (name : String) :
    Edit ConstantPool Method := do
  let descriptor ← m.descriptor source
  let exceptions ← (m.attribute? .exceptions).toList.mapM (Attribute.copy source names)
  let code ← (m.attribute? .code).toList.mapM (Attribute.copy source names)
  let nameIndex ← ConstantPool.internText name
  let descriptorIndex ← ConstantPool.internText (names.descriptor descriptor)
  pure { flags := m.flags, nameIndex, descriptorIndex, attributes := some (exceptions ++ code) }

end Method

end JvmClass
