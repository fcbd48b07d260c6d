import JvmClass.ConstantPool.View

/-!
# Loadable constants

The constants that a bootstrap method may receive as static arguments, with
the entries they refer to resolved.
-/

namespace JvmClass

/-- A method handle with the names of its member. -/
structure MethodHandle where
  /-- What the handle does. -/
  kind : HandleKind
  /-- The class of the member. -/
  className : String
  /-- The name of the member. -/
  name : String
  /-- The descriptor of the member. -/
  descriptor : String
  deriving DecidableEq, Repr

/-- A constant that a bootstrap method may receive. -/
inductive LoadableConstant where
  /-- A string. -/
  | string (value : String)
  /-- A 32-bit integer. -/
  | integer (value : Int32)
  /-- A 64-bit integer. -/
  | long (value : Int64)
  /-- A single precision number, by its bits. -/
  | float (bits : UInt32)
  /-- A double precision number, by its bits. -/
  | double (bits : UInt64)
  /-- A class, by internal name or array descriptor. -/
  | classInfo (name : String)
  /-- A method type, by descriptor. -/
  | methodType (descriptor : String)
  /-- A method handle. -/
  | methodHandle (handle : MethodHandle)
  /-- A constant computed by the bootstrap method at this place of the table. -/
  | dynamic (bootstrap : UInt16) (name descriptor : String)
  deriving DecidableEq, Repr

namespace ConstantPool

variable (pool : ConstantPool)

/-- The method handle at an index. Its member has to suit its kind. -/
def resolveHandle (i : UInt16) : Except Error MethodHandle := do
  let kind ← pool.handleKind i
  let reference ← pool.handleReference i
  let m ← pool.member reference
  if kind.accepts m.kind then
    pure { kind, className := m.className, name := m.name, descriptor := m.descriptor }
  else throw (.malformed (.methodHandle i kind m.kind reference))

/-- The loadable constant at an index. -/
def loadable (i : UInt16) : Except Error LoadableConstant := do
  match ← pool.entry i with
  | .symbol .string t => .string <$> pool.text t
  | .integer n => pure (.integer n)
  | .long n => pure (.long n)
  | .float bits => pure (.float bits)
  | .double bits => pure (.double bits)
  | .symbol .classInfo t => .classInfo <$> pool.text t
  | .symbol .methodType t => .methodType <$> pool.text t
  | .methodHandle _ _ => .methodHandle <$> pool.resolveHandle i
  | .dynamic .constant bootstrap _ => do
    let name ← pool.dynamicName .constant i
    let descriptor ← pool.dynamicDescriptor .constant i
    pure (.dynamic bootstrap name descriptor)
  | c => throw (.mismatch i .loadable c.kind)

end ConstantPool

end JvmClass
