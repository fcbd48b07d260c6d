import JvmClass.Attribute.Format
import JvmClass.Outline.Bytes

/-!
# Outlines of attributes and method bodies

Rows of a table are shown as lists of numbers. An attribute is shown with its
kind and length, and its payload in a form of its own. In drafts of bodies all
but the instructions may be missing.
-/

namespace JvmClass

/-! ## Rows of tables -/

instance : Outlined Handler := ⟨fun h => outline [h.start, h.stop, h.target, h.catchType]⟩

instance : Drafted Handler := ⟨fun tree => do
  match ← (ofDraft? tree : Option (List UInt16)) with
  | [start, stop, target, catchType] => pure { start, stop, target, catchType }
  | _ => none⟩

instance : Outlined LineNumber := ⟨fun e => outline [e.start, e.line]⟩

instance : Drafted LineNumber := ⟨fun tree => do
  match ← (ofDraft? tree : Option (List UInt16)) with
  | [start, line] => pure { start, line }
  | _ => none⟩

instance : Outlined LocalVariable := ⟨fun v =>
  outline [v.start, v.length, v.nameIndex, v.typeIndex, v.slot]⟩

instance : Drafted LocalVariable := ⟨fun tree => do
  match ← (ofDraft? tree : Option (List UInt16)) with
  | [start, length, nameIndex, typeIndex, slot] =>
    pure { start, length, nameIndex, typeIndex, slot }
  | _ => none⟩

instance : Outlined InnerClass := ⟨fun c => outline [c.inner, c.outer, c.name, c.flags]⟩

instance : Drafted InnerClass := ⟨fun tree => do
  match ← (ofDraft? tree : Option (List UInt16)) with
  | [inner, outer, name, flags] => pure { inner, outer, name, flags }
  | _ => none⟩

instance : Outlined BootstrapMethod := ⟨fun m => outline (m.handle, m.arguments)⟩

instance : Drafted BootstrapMethod := ⟨fun
  | .list [handle, arguments] => do
    pure { handle := (← ofDraft? handle), arguments := (← ofDraft? arguments) }
  | _ => none⟩

/-! ## Stack maps -/

/-- The verification types without an operand, by name. -/
def VerificationType.simple : List (String × VerificationType) :=
  [("Top", .top), ("Integer", .integer), ("Float", .float), ("Double", .double), ("Long", .long),
    ("Null", .null), ("UninitializedThis", .uninitializedThis)]

instance : Outlined VerificationType := ⟨fun
  | .top => .text "Top"
  | .integer => .text "Integer"
  | .float => .text "Float"
  | .double => .text "Double"
  | .long => .text "Long"
  | .null => .text "Null"
  | .uninitializedThis => .text "UninitializedThis"
  | .object i => .list [.text "Object", outline i]
  | .uninitialized position => .list [.text "Uninitialized", outline position]⟩

instance : Drafted VerificationType := ⟨fun
  | .text name => VerificationType.simple.lookup name
  | .list [.text "Object", i] => .object <$> ofDraft? i
  | .list [.text "Uninitialized", position] => .uninitialized <$> ofDraft? position
  | _ => none⟩

instance : Outlined StackFrame := ⟨fun
  | .same delta => .list [.text "Same", outline delta]
  | .oneOperand delta type =>
    .list [.text "SameLocals1StackItem", outline delta, outline type]
  | .oneOperandExtended delta type =>
    .list [.text "SameLocals1StackItemExtended", outline delta, outline type]
  | .chop delta count => .list [.text "Chop", outline delta, outline count]
  | .sameExtended delta => .list [.text "SameExtended", outline delta]
  | .append delta locals => .list [.text "Append", outline delta, outline locals]
  | .full delta locals operands =>
    .list [.text "Full", outline delta, outline locals, outline operands]⟩

/-- The frame of a form at a distance, with the drafts of what else it holds. -/
def StackFrame.ofForm? (form : String) (delta : UInt16) (rest : List Tree) : Option StackFrame :=
  match form, rest with
  | "Same", [] => some (.same delta)
  | "SameLocals1StackItem", [type] => .oneOperand delta <$> ofDraft? type
  | "SameLocals1StackItemExtended", [type] => .oneOperandExtended delta <$> ofDraft? type
  | "Chop", [count] => .chop delta <$> ofDraft? count
  | "SameExtended", [] => some (.sameExtended delta)
  | "Append", [locals] => .append delta <$> ofDraft? locals
  | "Full", [locals, operands] => do
    pure (.full delta (← ofDraft? locals) (← ofDraft? operands))
  | _, _ => none

instance : Drafted StackFrame := ⟨fun
  | .list (.text form :: delta :: rest) => do
    StackFrame.ofForm? form (← ofDraft? delta) rest
  | _ => none⟩

/-! ## Attributes -/

instance : Outlined AttributeKind := ⟨fun kind => .text (kind.name?.getD "Raw")⟩

instance : Drafted AttributeKind := ⟨fun tree => do
  let name ← tree.word?
  if name = "Raw" then some .raw else AttributeKind.table.lookup name⟩

instance : Outlined AttributeData := ⟨fun
  | .exceptions classes => outline classes
  | .constantValue index | .sourceFile index => outline index
  | .lineNumbers table => outline table
  | .localVariables table | .localVariableTypes table => outline table
  | .stackMap frames => .list (frames.map outline)
  | .synthetic => .null
  | .innerClasses table => outline table
  | .bootstrapMethods table => outline table
  | .raw bytes => outline bytes.toArray⟩

/-- The payload of a kind that a draft stands for. -/
def AttributeData.ofDraft? (tree : Tree) : AttributeKind → Option AttributeData
  | .exceptions => .exceptions <$> Drafted.ofDraft? tree
  | .constantValue => .constantValue <$> Drafted.ofDraft? tree
  | .sourceFile => .sourceFile <$> Drafted.ofDraft? tree
  | .lineNumbers => .lineNumbers <$> Drafted.ofDraft? tree
  | .localVariables => .localVariables <$> Drafted.ofDraft? tree
  | .localVariableTypes => .localVariableTypes <$> Drafted.ofDraft? tree
  | .stackMap => do pure (.stackMap (← (Drafted.ofDraft? tree : Option (List StackFrame))))
  | .synthetic => some .synthetic
  | .innerClasses => .innerClasses <$> Drafted.ofDraft? tree
  | .bootstrapMethods => .bootstrapMethods <$> Drafted.ofDraft? tree
  | .raw => do pure (.raw (← (Drafted.ofDraft? tree : Option (Array UInt8))).toList)
  | .code => none

mutual

/-- The outline of an attribute. -/
def Attribute.toOutline : Attribute → Tree
  | ⟨nameIndex, body⟩ =>
    .record
      [("name_index", outline nameIndex), ("kind", outline body.kind),
        ("length", outline (Attribute.length ⟨nameIndex, body⟩)),
        ("body", AttributeBody.toOutline body)]

/-- The outline of a payload. -/
def AttributeBody.toOutline : AttributeBody → Tree
  | .code body => Code.toOutline body
  | .data payload => outline payload

/-- The outline of a method body. -/
def Code.toOutline : Code → Tree
  | ⟨maxStack, maxLocals, bytes, handlers, attributes⟩ =>
    .record
      [("max_stack", outline maxStack), ("max_locals", outline maxLocals),
        ("code", outline bytes), ("exception_table", outline handlers),
        ("attributes", .list (Attribute.toOutlines attributes))]

/-- The outlines of several attributes. -/
def Attribute.toOutlines : List Attribute → List Tree
  | [] => []
  | a :: list => Attribute.toOutline a :: Attribute.toOutlines list

end

instance : Outlined Attribute := ⟨Attribute.toOutline⟩

instance : Outlined Code := ⟨Code.toOutline⟩

/-! ## Building attributes

The name of an attribute that is built from a draft is added to a pool, after
the names of the attributes that it carries.
-/

/-- An attribute that is yet to be named. Some have an index or a name. -/
inductive AttributeDraft where
  /-- A payload that carries no attributes. -/
  | data (nameIndex : Option UInt16) (name : Option String) (data : AttributeData)
  /-- A body with its attributes. -/
  | code (nameIndex : Option UInt16) (body : Code) (attributes : List AttributeDraft)

/-- The head of a draft of a body, without its attributes. -/
def Code.ofDraft? (tree : Tree) : Option Code := do
  pure
    { maxStack := ← tree.getD? "max_stack" 0
      maxLocals := ← tree.getD? "max_locals" 0
      bytes := ← tree.get? "code"
      handlers := ← tree.getD? "exception_table" []
      attributes := [] }

/-- Reads the drafts of attributes with bodies nested less than `depth` deep. -/
def AttributeDraft.readNested? : (depth : Nat) → Tree → Option AttributeDraft
  | 0, _ => none
  | depth + 1, tree => do
    let kind : AttributeKind ← tree.get? "kind"
    let nameIndex : Option UInt16 ← tree.getD? "name_index" none
    let content := (tree.field? "body").getD .null
    match kind with
    | .code => do
      let attributes ← (← content.getD? "attributes" ([] : List Tree)).mapM (readNested? depth)
      pure (.code nameIndex (← Code.ofDraft? content) attributes)
    | kind => do
      pure (.data nameIndex (← tree.getD? "name" none) (← AttributeData.ofDraft? content kind))

mutual

/-- The number of levels of a tree. -/
def Tree.depth : Tree → Nat
  | .list items => Tree.depthOfItems items + 1
  | .record fields => Tree.depthOfFields fields + 1
  | _ => 1

/-- The most levels of the items. -/
def Tree.depthOfItems : List Tree → Nat
  | [] => 0
  | t :: rest => max t.depth (Tree.depthOfItems rest)

/-- The most levels of the fields. -/
def Tree.depthOfFields : List (String × Tree) → Nat
  | [] => 0
  | (_, t) :: rest => max t.depth (Tree.depthOfFields rest)

end

/-- A body inside a body is deeper in the tree. -/
instance : Drafted AttributeDraft := ⟨fun tree => AttributeDraft.readNested? tree.depth tree⟩

mutual

/-- Adds the names of a draft to the pool under edit. An attribute of no
recognized kind needs an index or a name. -/
def AttributeDraft.build : AttributeDraft → Edit ConstantPool Attribute
  | .data (some nameIndex) _ payload => pure { nameIndex, body := .data payload }
  | .data none (some name) (.raw bytes) => Attribute.ofRaw name bytes
  | .data none _ payload => Attribute.ofBody (.data payload)
  | .code nameIndex body attributes => do
    let body := AttributeBody.code { body with attributes := ← AttributeDraft.buildAll attributes }
    match nameIndex with
    | some nameIndex => pure { nameIndex, body }
    | none => Attribute.ofBody body

/-- Adds the names of several drafts, in order. -/
def AttributeDraft.buildAll : List AttributeDraft → Edit ConstantPool (List Attribute)
  | [] => pure []
  | draft :: list => do
    let a ← AttributeDraft.build draft
    let rest ← AttributeDraft.buildAll list
    pure (a :: rest)

end

/-- Adds the names in the draft of a body to the pool under edit. -/
def Code.build? (tree : Tree) : Option (Edit ConstantPool Code) := do
  let body ← Code.ofDraft? tree
  let attributes : List AttributeDraft ← tree.getD? "attributes" []
  pure do pure { body with attributes := ← AttributeDraft.buildAll attributes }

end JvmClass
