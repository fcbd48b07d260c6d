import JvmClass.ConstantPool.View
import JvmClass.Descriptor.Renaming

/-!
# Copying constants between pools

An entry is copied together with all entries it refers to. Class names are
renamed in class entries and in the descriptors of members and method types;
every other text stays as it is. Index zero stands for no entry and is copied
to zero. Dynamic entries keep the place of their bootstrap method, so the table
of bootstrap methods has to be copied along with them.
-/

namespace JvmClass.ConstantPool

variable (source : ConstantPool) (names : Renaming)

/-- The text of a symbol of some kind under a renaming. -/
def renamedSymbol : SymbolKind → String → String
  | .classInfo, text => names.className text
  | .methodType, text => names.descriptor text
  | .string, text | .moduleInfo, text | .packageInfo, text => text

/-- Copy a class. -/
def copyClass (i : UInt16) : Edit ConstantPool UInt16 := do
  internClass (names.className (← source.className i))

/-- Copy a name with its descriptor. -/
def copyNameAndType (i : UInt16) : Edit ConstantPool UInt16 := do
  let (n, d) ← source.nameAndType i
  let name ← source.text n
  let descriptor ← source.text d
  internNameAndType name (names.descriptor descriptor)

/-- Copy a reference to a member. -/
def copyMember (i : UInt16) : Edit ConstantPool UInt16 := do
  let (kind, c, n) ← source.memberIndices none i
  let c ← source.copyClass names c
  let n ← source.copyNameAndType names n
  intern (.member kind c n)

/-- Copy an entry from `source` into the pool under edit, and give its index
there. -/
def copy (i : UInt16) : Edit ConstantPool UInt16 := do
  if i = 0 then return 0
  match ← source.entry i with
  | .text s => internText s
  | .integer n => intern (.integer n)
  | .float bits => intern (.float bits)
  | .long n => intern (.long n)
  | .double bits => intern (.double bits)
  | .symbol kind t => do internSymbol kind (renamedSymbol names kind (← source.text t))
  | .member _ _ _ => source.copyMember names i
  | .nameAndType _ _ => source.copyNameAndType names i
  | .methodHandle kind reference => do
    intern (.methodHandle kind (← source.copyMember names reference))
  | .dynamic kind bootstrap n => do
    intern (.dynamic kind bootstrap (← source.copyNameAndType names n))

end JvmClass.ConstantPool
