import JvmClass.ConstantPool.Loadable
import JvmClass.Outline.Bytes

/-!
# Outlines of constants

A constant is shown as a list of the name of its kind and its operands. A pool
is shown with its entries by index, unless there are too many.
-/

namespace JvmClass

/-! ## Entries -/

/-- The operands of a constant. -/
def Constant.outlineOperands : Constant → List Tree
  | .text s => [outlineText s]
  | .integer n => [outline n]
  | .float bits => [outlineBits 8 bits.toNat]
  | .long n => [outline n]
  | .double bits => [outlineBits 16 bits.toNat]
  | .symbol _ t => [outline t]
  | .member _ c n => [outline c, outline n]
  | .nameAndType n d => [outline n, outline d]
  | .methodHandle kind reference => [outline kind, outline reference]
  | .dynamic _ bootstrap n => [outline bootstrap, outline n]

instance : Outlined Constant := ⟨fun c => .list (.text c.kind.label :: c.outlineOperands)⟩

/-- The kinds of constants. -/
def ConstantKind.all : List ConstantKind :=
  [.text, .integer, .float, .long, .double, .symbol .classInfo, .symbol .string, .member .field,
    .member .method, .member .interfaceMethod, .nameAndType, .methodHandle, .symbol .methodType,
    .dynamic .constant, .dynamic .callSite, .symbol .moduleInfo, .symbol .packageInfo]

/-- The constant of a kind with the given operands. -/
def Constant.ofOperands? : ConstantKind → List Tree → Option Constant
  | .text, [s] => .text <$> ofDraft? s
  | .integer, [n] => .integer <$> ofDraft? n
  | .float, [bits] => do pure (.float (UInt32.ofNat (← bits.bits?)))
  | .long, [n] => .long <$> ofDraft? n
  | .double, [bits] => do pure (.double (UInt64.ofNat (← bits.bits?)))
  | .symbol kind, [t] => .symbol kind <$> ofDraft? t
  | .member kind, [c, n] => do pure (.member kind (← ofDraft? c) (← ofDraft? n))
  | .nameAndType, [n, d] => do pure (.nameAndType (← ofDraft? n) (← ofDraft? d))
  | .methodHandle, [kind, reference] => do
    pure (.methodHandle (← ofDraft? kind) (← ofDraft? reference))
  | .dynamic kind, [bootstrap, n] => do pure (.dynamic kind (← ofDraft? bootstrap) (← ofDraft? n))
  | _, _ => none

instance : Drafted Constant := ⟨fun
  | .list (.text label :: operands) => do
    Constant.ofOperands? (← ConstantKind.all.find? (·.label = label)) operands
  | _ => none⟩

/-- A constant with the properties of its kind. -/
def Constant.outlineInfo (c : Constant) : Tree :=
  .record
    [("entry", outline c), ("tag", outline c.kind.tag), ("size", outline c.slots),
      ("wide", outline c.isWide), ("kind", .text c.kind.label)]

/-! ## Resolved entries -/

instance : Outlined MemberRef := ⟨fun m => .record
  [("kind", .text m.kind.label), ("class_index", outline m.classIndex),
    ("nat_index", outline m.nameAndTypeIndex), ("class", outlineText m.className),
    ("name", outlineText m.name), ("descriptor", outlineText m.descriptor)]⟩

/-- The properties of a kind of method handle, named as given. -/
def HandleKind.outlineProperties (k : HandleKind)
    (field method interface bootstrap : String) : List (String × Tree) :=
  [(field, outline k.isField), (method, outline k.isMethod),
    (interface, outline k.isInterfaceMethod), (bootstrap, outline k.isValidBootstrap)]

instance : Outlined MethodHandle := ⟨fun h => .record
  ([("kind", .text h.kind.label), ("class", outline h.className), ("name", outline h.name),
    ("descriptor", outline h.descriptor)] ++
    h.kind.outlineProperties "field_ref" "method_ref" "interface_ref" "valid_bootstrap")⟩

instance : Outlined LoadableConstant := ⟨fun
  | .string value => .list [.text "String", outlineText value]
  | .integer value => .list [.text "Integer", outline value]
  | .long value => .list [.text "Long", outline value]
  | .float bits => .list [.text "Float", outlineBits 8 bits.toNat]
  | .double bits => .list [.text "Double", outlineBits 16 bits.toNat]
  | .classInfo name => .list [.text "Class", outline name]
  | .methodType descriptor => .list [.text "MethodType", outline descriptor]
  | .methodHandle handle => .list [.text "MethodHandle", outline handle]
  | .dynamic bootstrap name descriptor =>
    .list [.text "Dynamic", outline bootstrap, outline name, outline descriptor]⟩

/-! ## Pools -/

/-- The most slots of a pool whose entries are shown. -/
def ConstantPool.outlineLimit : Nat := 600

instance : Outlined ConstantPool := ⟨fun pool => .record
  [("size", outline pool.size), ("this_class", outline pool.thisClass),
    ("entries", outline (if ConstantPool.outlineLimit < pool.size then [] else pool.entries))]⟩

end JvmClass
