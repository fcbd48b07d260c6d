/-!
# Kinds of constants

A constant pool entry is introduced by a tag byte. Entries with the same shape
share a kind here: a symbol entry names one text entry, a member entry names a
class and a name with its descriptor, a dynamic entry names a bootstrap method
and a name with its descriptor. Method handles carry a reference kind of their
own.
-/

namespace JvmClass

/-- What an entry that names one text entry stands for. -/
inductive SymbolKind where
  /-- A class, by internal name or array descriptor. -/
  | classInfo
  /-- A string constant. -/
  | string
  /-- A method type, by descriptor. -/
  | methodType
  /-- A module, by name. -/
  | moduleInfo
  /-- A package, by name. -/
  | packageInfo
  deriving DecidableEq, Hashable, Repr

/-- What a member entry refers to. -/
inductive MemberKind where
  /-- A field. -/
  | field
  /-- A method of a class. -/
  | method
  /-- A method of an interface. -/
  | interfaceMethod
  deriving DecidableEq, Hashable, Repr

/-- What a bootstrap method computes for a dynamic entry. -/
inductive DynamicKind where
  /-- A constant. -/
  | constant
  /-- A call site. -/
  | callSite
  deriving DecidableEq, Hashable, Repr

/-- The kind of a constant pool entry. -/
inductive ConstantKind where
  /-- Text. -/
  | text
  /-- A 32-bit integer. -/
  | integer
  /-- A single precision number. -/
  | float
  /-- A 64-bit integer. -/
  | long
  /-- A double precision number. -/
  | double
  /-- An entry that names one text entry. -/
  | symbol (kind : SymbolKind)
  /-- A reference to a field or method. -/
  | member (kind : MemberKind)
  /-- A name with a descriptor. -/
  | nameAndType
  /-- A method handle. -/
  | methodHandle
  /-- A constant or call site computed by a bootstrap method. -/
  | dynamic (kind : DynamicKind)
  deriving DecidableEq, Repr

/-- The tag byte of a kind. -/
def ConstantKind.tag : ConstantKind → UInt8
  | .text => 1
  | .integer => 3
  | .float => 4
  | .long => 5
  | .double => 6
  | .symbol .classInfo => 7
  | .symbol .string => 8
  | .member .field => 9
  | .member .method => 10
  | .member .interfaceMethod => 11
  | .nameAndType => 12
  | .methodHandle => 15
  | .symbol .methodType => 16
  | .dynamic .constant => 17
  | .dynamic .callSite => 18
  | .symbol .moduleInfo => 19
  | .symbol .packageInfo => 20

/-- The kind that a tag byte introduces. -/
def ConstantKind.ofTag? : UInt8 → Option ConstantKind
  | 1 => some .text
  | 3 => some .integer
  | 4 => some .float
  | 5 => some .long
  | 6 => some .double
  | 7 => some (.symbol .classInfo)
  | 8 => some (.symbol .string)
  | 9 => some (.member .field)
  | 10 => some (.member .method)
  | 11 => some (.member .interfaceMethod)
  | 12 => some .nameAndType
  | 15 => some .methodHandle
  | 16 => some (.symbol .methodType)
  | 17 => some (.dynamic .constant)
  | 18 => some (.dynamic .callSite)
  | 19 => some (.symbol .moduleInfo)
  | 20 => some (.symbol .packageInfo)
  | _ => none

/-- The name of a kind in messages. -/
def ConstantKind.label : ConstantKind → String
  | .text => "Utf8"
  | .integer => "Integer"
  | .float => "Float"
  | .long => "Long"
  | .double => "Double"
  | .symbol .classInfo => "Class"
  | .symbol .string => "String"
  | .symbol .methodType => "MethodType"
  | .symbol .moduleInfo => "Module"
  | .symbol .packageInfo => "Package"
  | .member .field => "Fieldref"
  | .member .method => "Methodref"
  | .member .interfaceMethod => "InterfaceMethodref"
  | .nameAndType => "NameAndType"
  | .methodHandle => "MethodHandle"
  | .dynamic .constant => "Dynamic"
  | .dynamic .callSite => "InvokeDynamic"

/-- Long and double entries take two slots of the pool. -/
def ConstantKind.isWide : ConstantKind → Bool
  | .long | .double => true
  | _ => false

/-- Every kind is introduced by its own tag. -/
theorem ConstantKind.ofTag?_tag (kind : ConstantKind) : ofTag? kind.tag = some kind := by
  cases kind with
  | symbol kind => cases kind <;> rfl
  | member kind => cases kind <;> rfl
  | dynamic kind => cases kind <;> rfl
  | _ => rfl

/-- The name of a member kind in messages about method handles. -/
def MemberKind.label : MemberKind → String
  | .field => "Field"
  | .method => "Method"
  | .interfaceMethod => "InterfaceMethod"

/-- The operation that a method handle stands for. -/
inductive HandleKind where
  /-- Read an instance field. -/
  | getField
  /-- Read a static field. -/
  | getStatic
  /-- Write an instance field. -/
  | putField
  /-- Write a static field. -/
  | putStatic
  /-- Call a virtual method. -/
  | invokeVirtual
  /-- Call a static method. -/
  | invokeStatic
  /-- Call a method without dispatch. -/
  | invokeSpecial
  /-- Create an object and call a constructor. -/
  | newInvokeSpecial
  /-- Call an interface method. -/
  | invokeInterface
  deriving DecidableEq, Repr

namespace HandleKind

/-- The number of a kind in a method handle entry. -/
def code : HandleKind → UInt8
  | .getField => 1
  | .getStatic => 2
  | .putField => 3
  | .putStatic => 4
  | .invokeVirtual => 5
  | .invokeStatic => 6
  | .invokeSpecial => 7
  | .newInvokeSpecial => 8
  | .invokeInterface => 9

/-- The kind with the given number. -/
def ofCode? : UInt8 → Option HandleKind
  | 1 => some .getField
  | 2 => some .getStatic
  | 3 => some .putField
  | 4 => some .putStatic
  | 5 => some .invokeVirtual
  | 6 => some .invokeStatic
  | 7 => some .invokeSpecial
  | 8 => some .newInvokeSpecial
  | 9 => some .invokeInterface
  | _ => none

/-- The name of a kind in messages. -/
def label : HandleKind → String
  | .getField => "GetField"
  | .getStatic => "GetStatic"
  | .putField => "PutField"
  | .putStatic => "PutStatic"
  | .invokeVirtual => "InvokeVirtual"
  | .invokeStatic => "InvokeStatic"
  | .invokeSpecial => "InvokeSpecial"
  | .newInvokeSpecial => "NewInvokeSpecial"
  | .invokeInterface => "InvokeInterface"

/-- The kinds that read or write a field. -/
def isField : HandleKind → Bool
  | .getField | .getStatic | .putField | .putStatic => true
  | _ => false

/-- The kinds that call a method of a class. -/
def isMethod : HandleKind → Bool
  | .invokeVirtual | .invokeStatic | .invokeSpecial | .newInvokeSpecial => true
  | _ => false

/-- The kind that calls an interface method. -/
def isInterfaceMethod : HandleKind → Bool
  | .invokeInterface => true
  | _ => false

/-- A bootstrap method is a static method or a constructor. -/
def isValidBootstrap : HandleKind → Bool
  | .invokeStatic | .newInvokeSpecial => true
  | _ => false

/-- Whether a handle of this kind may refer to a member of that kind. -/
def accepts : HandleKind → MemberKind → Bool
  | .getField, .field | .getStatic, .field | .putField, .field | .putStatic, .field => true
  | .invokeVirtual, .method | .newInvokeSpecial, .method => true
  | .invokeStatic, .method | .invokeStatic, .interfaceMethod => true
  | .invokeSpecial, .method | .invokeSpecial, .interfaceMethod => true
  | .invokeInterface, .interfaceMethod => true
  | _, _ => false

/-- Every kind has its own number. -/
theorem ofCode?_code (kind : HandleKind) : ofCode? kind.code = some kind := by
  cases kind <;> rfl

end HandleKind

end JvmClass
