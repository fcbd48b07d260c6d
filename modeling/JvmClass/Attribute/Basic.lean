import JvmClass.Attribute.Data

/-!
# Attributes and method bodies

An attribute is a name and a payload. A method body is the payload of one kind
of attribute and carries attributes of its own, so that attributes can be
nested to any depth.
-/

namespace JvmClass

mutual

/-- The payload of an attribute. -/
inductive AttributeBody where
  /-- The body of a method. -/
  | code (code : Code)
  /-- Any other payload. -/
  | data (data : AttributeData)

/-- An attribute. -/
structure Attribute where
  /-- The index of its name. -/
  nameIndex : UInt16
  /-- Its payload. -/
  body : AttributeBody

/-- The body of a method. -/
structure Code where
  /-- The operand stack that it needs. -/
  maxStack : UInt16
  /-- The local variable slots that it needs. -/
  maxLocals : UInt16
  /-- Its instructions. -/
  bytes : Array UInt8
  /-- Its exception table. -/
  handlers : List Handler
  /-- Its attributes. -/
  attributes : List Attribute

end

/-! ## Equality -/

mutual

/-- Whether two attributes are the same. -/
def Attribute.decEq : (a b : Attribute) → Decidable (a = b)
  | ⟨i, a⟩, ⟨j, b⟩ =>
    if hi : i = j then
      match AttributeBody.decEq a b with
      | .isTrue h => .isTrue (by rw [hi, h])
      | .isFalse h => .isFalse (by simp [h])
    else .isFalse (by simp [hi])
termination_by structural a => a

/-- Whether two payloads are the same. -/
def AttributeBody.decEq : (a b : AttributeBody) → Decidable (a = b)
  | .code a, .code b =>
    match Code.decEq a b with
    | .isTrue h => .isTrue (by rw [h])
    | .isFalse h => .isFalse (by simp [h])
  | .data a, .data b => if h : a = b then .isTrue (by rw [h]) else .isFalse (by simp [h])
  | .code _, .data _ => .isFalse nofun
  | .data _, .code _ => .isFalse nofun

/-- Whether two method bodies are the same. -/
def Code.decEq : (a b : Code) → Decidable (a = b)
  | ⟨stack, locals, bytes, handlers, attributes⟩,
    ⟨stack', locals', bytes', handlers', attributes'⟩ =>
    if same : stack = stack' ∧ locals = locals' ∧ bytes = bytes' ∧ handlers = handlers' then
      match Attribute.decEqList attributes attributes' with
      | .isTrue h => .isTrue (by rw [same.1, same.2.1, same.2.2.1, same.2.2.2, h])
      | .isFalse h => .isFalse (by simp [h])
    else .isFalse (fun equal => same (by simp_all))

/-- Whether two lists of attributes are the same. -/
def Attribute.decEqList : (a b : List Attribute) → Decidable (a = b)
  | [], [] => .isTrue rfl
  | [], _ :: _ => .isFalse nofun
  | _ :: _, [] => .isFalse nofun
  | a :: as, b :: bs =>
    match Attribute.decEq a b with
    | .isFalse h => .isFalse (by simp [h])
    | .isTrue h =>
      match Attribute.decEqList as bs with
      | .isTrue h' => .isTrue (by rw [h, h'])
      | .isFalse h' => .isFalse (by simp [h'])

end

instance : DecidableEq Attribute := Attribute.decEq

instance : DecidableEq AttributeBody := AttributeBody.decEq

instance : DecidableEq Code := Code.decEq

/-! ## Kinds and names -/

/-- The kind of a payload. -/
def AttributeBody.kind : AttributeBody → AttributeKind
  | .code _ => .code
  | .data payload => payload.kind

namespace Attribute

/-- The kind of an attribute. -/
def kind (a : Attribute) : AttributeKind := a.body.kind

/-- The name of an attribute. -/
def name (a : Attribute) (pool : ConstantPool) : Except Error String := pool.text a.nameIndex

/-- Whether an attribute has a name. One whose name is not in the pool has
none. -/
def hasName (pool : ConstantPool) (name : String) (a : Attribute) : Bool :=
  match a.name pool with
  | .ok found => found == name
  | .error _ => false

/-- The attribute with a payload of a recognized kind, under the name of its
kind. -/
def ofBody (body : AttributeBody) : Edit ConstantPool Attribute :=
  match body.kind.name? with
  | some name => do
    let nameIndex ← ConstantPool.internText name
    pure { nameIndex, body }
  | none => throw (.malformed .unnamedAttribute)

/-- The attribute with a name of its own and a payload that is kept as it is. -/
def ofRaw (name : String) (bytes : List UInt8) : Edit ConstantPool Attribute := do
  let nameIndex ← ConstantPool.internText name
  pure { nameIndex, body := .data (.raw bytes) }

/-! ## Lists of attributes -/

/-- The first attribute with a name. -/
def findByName? (pool : ConstantPool) (name : String) (list : List Attribute) :
    Option Attribute :=
  list.find? (hasName pool name)

/-- The first attribute of a kind. -/
def findByKind? (kind : AttributeKind) (list : List Attribute) : Option Attribute :=
  list.find? fun a => a.kind = kind

/-- The attributes without those of a name. -/
def removeByName (pool : ConstantPool) (name : String) (list : List Attribute) :
    List Attribute :=
  list.filter fun a => !hasName pool name a

/-- The attributes without those of a kind. -/
def removeByKind (kind : AttributeKind) (list : List Attribute) : List Attribute :=
  list.filter fun a => a.kind ≠ kind

/-- Change the first attribute of a kind. -/
def modifyFirst (kind : AttributeKind) (f : Attribute → Attribute) :
    List Attribute → List Attribute
  | [] => []
  | a :: list => if a.kind = kind then f a :: list else a :: modifyFirst kind f list

/-- Add an attribute at the end, in place of all others with its name. -/
def replaceByName (pool : ConstantPool) (a : Attribute) (list : List Attribute) :
    Except Error (List Attribute) := do
  let name ← a.name pool
  pure (removeByName pool name list ++ [a])

end Attribute

namespace Code

/-- The first attribute of a kind. -/
def attribute? (code : Code) (kind : AttributeKind) : Option Attribute :=
  Attribute.findByKind? kind code.attributes

/-- The first line number table. -/
def lineNumbers? (code : Code) : Option (List LineNumber) :=
  match (code.attribute? .lineNumbers).map Attribute.body with
  | some (.data (.lineNumbers table)) => some table
  | _ => none

/-- The first local variable table. -/
def localVariables? (code : Code) : Option (List LocalVariable) :=
  match (code.attribute? .localVariables).map Attribute.body with
  | some (.data (.localVariables table)) => some table
  | _ => none

/-- The first stack map. -/
def stackMap? (code : Code) : Option StackMap :=
  match (code.attribute? .stackMap).map Attribute.body with
  | some (.data (.stackMap frames)) => some frames
  | _ => none

end Code

end JvmClass
