import JvmClass.CallSite.Basic
import JvmClass.Outline.Bodies
import JvmClass.Outline.Constants
import JvmClass.Outline.Failures

/-!
# Outlines of classes and their members

A member is shown with the indices that it holds and the names found there. A
class is shown with all its members, but of its pool only the size.
-/

namespace JvmClass

/-- The outline of a member of either sort. -/
def outlineMember (flags : AccessFlags) (nameIndex descriptorIndex : UInt16)
    (attributes : Option (List Attribute)) (pool : ConstantPool) : Tree :=
  .record
    [("flags", outline flags.bits), ("name_index", outline nameIndex),
      ("descriptor_index", outline descriptorIndex),
      ("name", outline (pool.text nameIndex)),
      ("descriptor", outline (pool.text descriptorIndex)),
      ("attributes", outline attributes)]

/-- The outline of a field. -/
def Field.toOutline (f : Field) (pool : ConstantPool) : Tree :=
  outlineMember f.flags f.nameIndex f.descriptorIndex (some f.attributes) pool

/-- The outline of a method. -/
def Method.toOutline (m : Method) (pool : ConstantPool) : Tree :=
  outlineMember m.flags m.nameIndex m.descriptorIndex m.attributes pool

/-- A method with what its flags, name and attributes say. -/
def Method.outlineInfo (m : Method) (pool : ConstantPool) : Tree :=
  .record
    [("method", m.toOutline pool), ("static", outline m.flags.isStatic),
      ("private", outline m.flags.isPrivate), ("is_method", outline (m.isOrdinary pool)),
      ("is_constructor", outline (m.isConstructor pool)),
      ("is_static_initializer", outline (m.isStaticInitializer pool)),
      ("code", outline (m.code?.map fun code => code.bytes.size)),
      ("exceptions", outline (m.exceptions?.map pool.classNames))]

instance : Outlined ClassFile := ⟨fun c => .record
  [("minor", outline c.minorVersion), ("major", outline c.majorVersion),
    ("pool_size", outline c.pool.size), ("flags", outline c.flags.bits),
    ("this_class", outline c.thisClass), ("super_class", outline c.superClass),
    ("interfaces", outline c.interfaces), ("fields", .list (c.fields.map (·.toOutline c.pool))),
    ("methods", .list (c.methods.map (·.toOutline c.pool))),
    ("attributes", outline c.attributes)]⟩

/-- The names of a class, of its relatives, and of the owner of its pool. -/
def ClassFile.outlineNames (c : ClassFile) : Tree :=
  .record
    [("name", outline c.name), ("pool", outline c.pool.ownerName),
      ("super", outline c.superClassName), ("interfaces", outline c.interfaceNames)]

/-- A dynamic call with all that can be found out about it. -/
def CallSite.toOutline (call : CallSite) (c : ClassFile) : Tree :=
  let member := call.bootstrapMember c
  .record
    [("position", outline call.position), ("end", outline call.stop),
      ("callsite", outline call.callSiteIndex), ("bootstrap", outline call.bootstrapIndex),
      ("class", outline c.name), ("name", outline (call.name c)),
      ("signature", outline (call.descriptor c)),
      ("method", outline (call.bootstrapMethod c)), ("handle", outline (call.bootstrapHandle c)),
      ("bsm_name", outline ((·.name) <$> member)),
      ("bsm_signature", outline ((·.descriptor) <$> member)),
      ("bsm_class", outline ((·.className) <$> member)),
      ("arg_count", outline (call.bootstrapArgumentCount c)),
      ("arguments", outline (call.bootstrapArguments c))]

end JvmClass
