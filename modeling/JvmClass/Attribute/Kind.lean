/-!
# Kinds of attributes

The attributes whose payload this library decodes, by name. All others are
kept as they are.
-/

namespace JvmClass

/-- The recognized attributes, and one kind for the rest. -/
inductive AttributeKind where
  /-- The body of a method. -/
  | code
  /-- The checked exceptions of a method. -/
  | exceptions
  /-- The value of a constant field. -/
  | constantValue
  /-- The source file of a class. -/
  | sourceFile
  /-- The source lines of a body. -/
  | lineNumbers
  /-- The local variables of a body, with their descriptors. -/
  | localVariables
  /-- The local variables of a body, with their generic signatures. -/
  | localVariableTypes
  /-- The stack map of a body. -/
  | stackMap
  /-- The mark of what no source text stands for. -/
  | synthetic
  /-- The inner classes of a class. -/
  | innerClasses
  /-- The bootstrap methods of a class. -/
  | bootstrapMethods
  /-- Any other attribute. -/
  | raw
  deriving DecidableEq, Repr

namespace AttributeKind

/-- The recognized kinds with their names. -/
def table : List (String × AttributeKind) :=
  [("Code", .code), ("Exceptions", .exceptions), ("ConstantValue", .constantValue),
    ("SourceFile", .sourceFile), ("LineNumberTable", .lineNumbers),
    ("LocalVariableTable", .localVariables), ("LocalVariableTypeTable", .localVariableTypes),
    ("StackMapTable", .stackMap), ("Synthetic", .synthetic), ("InnerClasses", .innerClasses),
    ("BootstrapMethods", .bootstrapMethods)]

/-- The kind of the attributes with a name. -/
def ofName (name : String) : AttributeKind := (table.lookup name).getD .raw

/-- The name of the attributes of a kind. The others carry their own. -/
def name? (kind : AttributeKind) : Option String :=
  (table.find? fun entry => entry.2 = kind).map Prod.fst

end AttributeKind

end JvmClass
