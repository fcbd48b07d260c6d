import JvmClass.Outline.Constants

/-!
# Queries of a constant pool

The views of a pool and the ways to add to it, by name. They let a tool that
knows names only look into a pool and extend it.
-/

namespace JvmClass.ConstantPool

/-- A view of a pool, whose answer is an outline. -/
abbrev View := ConstantPool → UInt16 → Except Error Tree

/-- A view whose answer may be a long text. -/
def textView (view : ConstantPool → UInt16 → Except Error String) : View := fun pool i =>
  outlineText <$> view pool i

/-- A view whose answer has an outline. -/
def valueView {α : Type} [Outlined α] (view : ConstantPool → UInt16 → Except Error α) : View :=
  fun pool i => outline <$> view pool i

/-- The views of member references of one kind. -/
def memberViews (word : String) (kind : MemberKind) : List (String × View) :=
  [(word, valueView fun pool => pool.memberOf (some kind)),
    (word ++ "_class_name", textView fun pool i => (·.className) <$> pool.memberOf (some kind) i),
    (word ++ "_name", textView fun pool i => (·.name) <$> pool.memberOf (some kind) i),
    (word ++ "_type", textView fun pool i => (·.descriptor) <$> pool.memberOf (some kind) i)]

/-- The views of the indices in member references of one kind. -/
def memberIndexViews (word : String) (kind : MemberKind) : List (String × View) :=
  [(word ++ "_class_index", valueView fun pool i => (·.2.1) <$> pool.memberIndices (some kind) i),
    (word ++ "_name_and_type",
      valueView fun pool i => (·.2.2) <$> pool.memberIndices (some kind) i)]

/-- The views of dynamic entries of one kind. -/
def dynamicViews (word : String) (kind : DynamicKind) : List (String × View) :=
  [(word ++ "_bootstrap", valueView fun pool i => (·.1) <$> pool.dynamic kind i),
    (word ++ "_name_and_type", valueView fun pool i => (·.2) <$> pool.dynamic kind i),
    (word ++ "_name", textView fun pool => pool.dynamicName kind),
    (word ++ "_type", textView fun pool => pool.dynamicDescriptor kind)]

/-- The views of a pool by name. -/
def views : List (String × View) :=
  [("entry", valueView entry),
    ("tag", valueView fun pool i => (·.kind.tag) <$> pool.entry i),
    ("utf8", textView text),
    ("integer", valueView integer),
    ("float", fun pool i => (fun bits => outlineBits 8 bits.toNat) <$> pool.float i),
    ("long", valueView long),
    ("double", fun pool i => (fun bits => outlineBits 16 bits.toNat) <$> pool.double i),
    ("class_name_index", valueView fun pool => pool.symbolText .classInfo),
    ("class", textView className),
    ("class_name", textView fun pool _ => pool.ownerName),
    ("string", textView fun pool => pool.symbol .string),
    ("method_type", textView fun pool => pool.symbol .methodType),
    ("module", textView fun pool => pool.symbol .moduleInfo),
    ("package", textView fun pool => pool.symbol .packageInfo),
    ("name_and_type", valueView nameAndType),
    ("name_and_type_name", textView nameOf),
    ("name_and_type_descriptor", textView descriptorOf),
    ("member_ref", valueView member),
    ("method_handle", valueView resolveHandle),
    ("method_handle_kind", valueView fun pool i => (·.label) <$> pool.handleKind i),
    ("method_handle_index", valueView handleReference),
    ("argument", valueView loadable)] ++
  memberViews "fieldref" .field ++ memberIndexViews "fieldref" .field ++
  memberViews "methodref" .method ++ memberIndexViews "methodref" .method ++
  memberViews "interface_methodref" .interfaceMethod ++
  dynamicViews "invoke_dynamic" .callSite ++ dynamicViews "dynamic" .constant

/-- What every view shows at an index. The name of one that fails is marked,
and the text of its error is shown. -/
def outlineViews (pool : ConstantPool) (i : UInt16) : Tree :=
  .record (views.map fun (name, view) =>
    match view pool i with
    | .ok tree => (name, tree)
    | .error e => ("!" ++ name, .text e.message))

/-- The kinds of entries that name one text. -/
def symbolNames : List (String × SymbolKind) :=
  [("class", .classInfo), ("string", .string), ("method_type", .methodType),
    ("module", .moduleInfo), ("package", .packageInfo)]

/-- The kinds of member references. -/
def memberNames : List (String × MemberKind) :=
  [("fieldref", .field), ("methodref", .method), ("interface_methodref", .interfaceMethod)]

/-- The addition with a name and arguments. -/
def addition? (name : String) (arguments : List Tree) : Option (Edit ConstantPool UInt16) :=
  match name, arguments with
  | "entry", [c] => intern <$> ofDraft? c
  | "utf8", [s] => internText <$> ofDraft? s
  | "integer", operands => intern <$> Constant.ofOperands? .integer operands
  | "float", operands => intern <$> Constant.ofOperands? .float operands
  | "long", operands => intern <$> Constant.ofOperands? .long operands
  | "double", operands => intern <$> Constant.ofOperands? .double operands
  | "name_and_type", [n, d] => do pure (internNameAndType (← ofDraft? n) (← ofDraft? d))
  | "name_and_type_index", operands => intern <$> Constant.ofOperands? .nameAndType operands
  | "method_handle", [kind, reference] => do
    let kind ← HandleKind.ofCode? (← ofDraft? kind)
    pure (intern (.methodHandle kind.code (← ofDraft? reference)))
  | "dynamic", operands => intern <$> Constant.ofOperands? (.dynamic .constant) operands
  | "invoke_dynamic", operands => intern <$> Constant.ofOperands? (.dynamic .callSite) operands
  | name, [s] => do pure (internSymbol (← symbolNames.lookup name) (← ofDraft? s))
  | name, [c, n, d] => do
    pure (internMember (← memberNames.lookup name) (← ofDraft? c) (← ofDraft? n) (← ofDraft? d))
  | name, operands => do
    let (_, kind) ← memberNames.find? fun (word, _) => name = word ++ "_index"
    intern <$> Constant.ofOperands? (.member kind) operands

/-- Adds consecutive numbers, and gives the index of the last. -/
def internIntegers (first : Int) : (count : Nat) → (last : UInt16) → Edit ConstantPool UInt16
  | 0, last => pure last
  | count + 1, _ => do
    let i ← intern (.integer (Int32.ofInt first))
    internIntegers (first + 1) count i

end JvmClass.ConstantPool
