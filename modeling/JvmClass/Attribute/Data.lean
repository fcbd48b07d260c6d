import JvmClass.Attribute.Kind
import JvmClass.Code.Handler
import JvmClass.Code.LineNumbers
import JvmClass.Code.LocalVariables
import JvmClass.Code.StackMap
import JvmClass.ConstantPool.Copy

/-!
# Attribute payloads

The payloads of all attributes but method bodies: how they are written and
read, how long they are, and how they are copied to another pool.
-/

namespace JvmClass

/-- An entry of the table of inner classes. Its indices may be zero. -/
structure InnerClass where
  /-- The index of the inner class. -/
  inner : UInt16
  /-- The index of the class around it. -/
  outer : UInt16
  /-- The index of its simple name. -/
  name : UInt16
  /-- Its access flags. -/
  flags : UInt16
  deriving DecidableEq, Repr

/-- An entry is its four fields in a row. -/
def InnerClass.codec : Codec InnerClass :=
  ((Codec.u16.pair Codec.u16).pair (Codec.u16.pair Codec.u16)).convert
    (fun ((inner, outer), (name, flags)) => { inner, outer, name, flags })
    (fun c => ((c.inner, c.outer), (c.name, c.flags)))

/-- A bootstrap method. -/
structure BootstrapMethod where
  /-- The index of its method handle. -/
  handle : UInt16
  /-- The indices of its static arguments. -/
  arguments : List UInt16
  deriving DecidableEq, Repr

/-- A bootstrap method is its handle followed by a table of arguments. -/
def BootstrapMethod.codec : Codec BootstrapMethod :=
  (Codec.u16.pair (Codec.table Codec.u16)).convert
    (fun (handle, arguments) => { handle, arguments }) (fun m => (m.handle, m.arguments))

/-- The number of bytes of a bootstrap method. -/
def BootstrapMethod.length (m : BootstrapMethod) : Nat := 4 + 2 * m.arguments.length

/-- The payload of an attribute that carries no attributes of its own. -/
inductive AttributeData where
  /-- The indices of the checked exceptions of a method. -/
  | exceptions (classes : List UInt16)
  /-- The index of the value of a constant field. -/
  | constantValue (index : UInt16)
  /-- The index of the name of a source file. -/
  | sourceFile (index : UInt16)
  /-- Source lines. -/
  | lineNumbers (table : List LineNumber)
  /-- Local variables with their descriptors. -/
  | localVariables (table : List LocalVariable)
  /-- Local variables with their generic signatures. -/
  | localVariableTypes (table : List LocalVariable)
  /-- A stack map. -/
  | stackMap (frames : StackMap)
  /-- Nothing. -/
  | synthetic
  /-- Inner classes. -/
  | innerClasses (table : List InnerClass)
  /-- Bootstrap methods. -/
  | bootstrapMethods (table : List BootstrapMethod)
  /-- The payload of an attribute of no recognized kind. -/
  | raw (bytes : List UInt8)
  deriving DecidableEq

namespace AttributeData

/-- The kind of a payload. -/
def kind : AttributeData → AttributeKind
  | .exceptions _ => .exceptions
  | .constantValue _ => .constantValue
  | .sourceFile _ => .sourceFile
  | .lineNumbers _ => .lineNumbers
  | .localVariables _ => .localVariables
  | .localVariableTypes _ => .localVariableTypes
  | .stackMap _ => .stackMap
  | .synthetic => .synthetic
  | .innerClasses _ => .innerClasses
  | .bootstrapMethods _ => .bootstrapMethods
  | .raw _ => .raw

/-- The number of bytes of a payload. -/
def length : AttributeData → Nat
  | .exceptions classes => 2 + 2 * classes.length
  | .constantValue _ | .sourceFile _ => 2
  | .lineNumbers table => 2 + 4 * table.length
  | .localVariables table | .localVariableTypes table => 2 + 10 * table.length
  | .stackMap frames => StackMap.length frames
  | .synthetic => 0
  | .innerClasses table => 2 + 8 * table.length
  | .bootstrapMethods table => 2 + Codec.lengthAll BootstrapMethod.length table
  | .raw bytes => bytes.length

/-- The bytes of a payload. -/
def encode : AttributeData → Except Error (List UInt8)
  | .exceptions classes => (Codec.table Codec.u16).encode classes
  | .constantValue index | .sourceFile index => Codec.u16.encode index
  | .lineNumbers table => (Codec.table LineNumber.codec).encode table
  | .localVariables table | .localVariableTypes table =>
    (Codec.table LocalVariable.codec).encode table
  | .stackMap frames => StackMap.codec.encode frames
  | .synthetic => .ok []
  | .innerClasses table => (Codec.table InnerClass.codec).encode table
  | .bootstrapMethods table => (Codec.table BootstrapMethod.codec).encode table
  | .raw bytes => .ok bytes

/-- Takes all bytes that are left. -/
def decodeRaw : Decoder AttributeData := fun bytes => .ok (.raw bytes, [])

/-- Reads the payload of an attribute of some kind. An attribute of no
recognized kind takes all bytes. A method body is not among these payloads and
reads as such an attribute. -/
def decode : AttributeKind → Decoder AttributeData
  | .exceptions => .exceptions <$> (Codec.table Codec.u16).decode
  | .constantValue => .constantValue <$> Codec.u16.decode
  | .sourceFile => .sourceFile <$> Codec.u16.decode
  | .lineNumbers => .lineNumbers <$> (Codec.table LineNumber.codec).decode
  | .localVariables => .localVariables <$> (Codec.table LocalVariable.codec).decode
  | .localVariableTypes => .localVariableTypes <$> (Codec.table LocalVariable.codec).decode
  | .stackMap => .stackMap <$> StackMap.codec.decode
  | .synthetic => pure .synthetic
  | .innerClasses => .innerClasses <$> (Codec.table InnerClass.codec).decode
  | .bootstrapMethods => .bootstrapMethods <$> (Codec.table BootstrapMethod.codec).decode
  | .code | .raw => decodeRaw

/-- The payload after bytes are inserted into the body that it belongs to. -/
def shift (s : Shift) : AttributeData → AttributeData
  | .lineNumbers table => .lineNumbers (table.map (LineNumber.shift s))
  | .localVariables table => .localVariables (table.map (LocalVariable.shift s))
  | .localVariableTypes table => .localVariableTypes (table.map (LocalVariable.shift s))
  | .stackMap frames => .stackMap (StackMap.shift s frames)
  | other => other

/-! ## Copying to another pool -/

section Copy

variable (source : ConstantPool) (names : Renaming)

/-- Copy a local variable. Its type is renamed by `renameType`. -/
def copyVariable (renameType : String → String) (v : LocalVariable) :
    Edit ConstantPool LocalVariable := do
  let type ← source.text v.typeIndex
  let typeIndex ← ConstantPool.internText (renameType type)
  let name ← source.text v.nameIndex
  let nameIndex ← ConstantPool.internText name
  pure { v with nameIndex, typeIndex }

/-- Copy a verification type, which may name a class. -/
def copyVerificationType : VerificationType → Edit ConstantPool VerificationType
  | .object i => .object <$> source.copy names i
  | type => pure type

/-- Copy an entry of the table of inner classes. -/
def copyInnerClass (c : InnerClass) : Edit ConstantPool InnerClass := do
  let inner ← source.copy names c.inner
  let outer ← source.copy names c.outer
  let name ← source.copy names c.name
  pure { inner, outer, name, flags := c.flags }

/-- Copy a bootstrap method. -/
def copyBootstrapMethod (m : BootstrapMethod) : Edit ConstantPool BootstrapMethod := do
  let handle ← source.copy names m.handle
  let arguments ← m.arguments.mapM (source.copy names)
  pure { handle, arguments }

/-- Copy a payload to the pool under edit. Every index is resolved again;
descriptors are renamed, generic signatures are not. -/
def copy : AttributeData → Edit ConstantPool AttributeData
  | .exceptions classes => .exceptions <$> classes.mapM (source.copy names)
  | .constantValue index => .constantValue <$> source.copy names index
  | .sourceFile index => do
    let name ← source.text index
    .sourceFile <$> ConstantPool.internText name
  | .lineNumbers table => pure (.lineNumbers table)
  | .localVariables table =>
    .localVariables <$> table.mapM (copyVariable source names.descriptor)
  | .localVariableTypes table => .localVariableTypes <$> table.mapM (copyVariable source id)
  | .stackMap frames =>
    .stackMap <$> frames.mapM (StackFrame.traverseTypes (copyVerificationType source names))
  | .synthetic => pure .synthetic
  | .innerClasses table => .innerClasses <$> table.mapM (copyInnerClass source names)
  | .bootstrapMethods table =>
    .bootstrapMethods <$> table.mapM (copyBootstrapMethod source names)
  | .raw bytes => pure (.raw bytes)

end Copy

end AttributeData

end JvmClass
