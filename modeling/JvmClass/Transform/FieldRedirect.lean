import JvmClass.Transform.Stage

/-!
# Redirecting a field

A redirection makes every access to one field an access to another field. It
remembers the index of the new field as long as it works on bodies of the same
pool.
-/

namespace JvmClass

/-- A stage that redirects the accesses to a field. -/
structure FieldRedirect where
  /-- The class that declares the field. -/
  className : String
  /-- The name of the field. -/
  fieldName : String
  /-- Whether the field is private, so that no other class can name it. -/
  isPrivate : Bool
  /-- The class of the new field. -/
  newClass : String
  /-- The name of the new field. -/
  newField : String
  /-- The identity of the pool of the last redirected access, and the index of
  the new field there. -/
  cached : Option (Nat × UInt16)
  deriving DecidableEq, Repr

namespace FieldRedirect

/-- The redirection of a field of a class to a field of another class. -/
def create (className fieldName : String) (isPrivate : Bool) (newClass newField : String) :
    FieldRedirect :=
  { className, fieldName, isPrivate, newClass, newField, cached := none }

/-- Whether a reference names the field: through its own class, or, unless the
field is private, through a class that sees it declared there. -/
def concerns (stage : FieldRedirect) (hierarchy : TypeHierarchy) (field : MemberRef) : Bool :=
  field.name == stage.fieldName &&
    (field.className == stage.className ||
      !stage.isPrivate && hierarchy field.className field.name == some stage.className)

/-- The index of the new field, which takes the descriptor of the old one. -/
def internTarget (stage : FieldRedirect) (descriptor : String) : Edit ConstantPool UInt16 := do
  let nameAndType ← ConstantPool.internNameAndType stage.newField descriptor
  let owner ← ConstantPool.internClass stage.newClass
  ConstantPool.intern (.member .field owner nameAndType)

/-- The remembered index of the new field, or its index in the pool, which is
remembered. -/
def targetIndex (stage : FieldRedirect) (descriptor : String) (pool : ConstantPool) :
    Except Error UInt16 × FieldRedirect × ConstantPool :=
  match stage.cached with
  | some (_, i) => (.ok i, stage, pool)
  | none =>
    match (stage.internTarget descriptor).runOn pool with
    | (.ok i, pool) => (.ok i, { stage with cached := some (pool.id, i) }, pool)
    | (.error e, pool) => (.error e, stage, pool)

/-- The field that the instruction at a position accesses, if it is the one to
be redirected. -/
def accessAt? (stage : FieldRedirect) (hierarchy : TypeHierarchy) (bench : Workbench)
    (position : Nat) : Except Error (Option MemberRef) := do
  let op ← bench.cursor.byteAt position
  if !Opcode.isFieldAccess op then return none
  let i ← bench.cursor.u16At (position + 1)
  let field ← bench.pool.field i
  pure (if stage.concerns hierarchy field then some field else none)

/-- Redirect the instruction at a position, if it accesses the field. -/
def redirectAccess (hierarchy : TypeHierarchy) (position : Nat) :
    Edit (FieldRedirect × Workbench) Nat := ExceptT.mk fun (stage, ⟨pool, cursor⟩) =>
  match stage.accessAt? hierarchy ⟨pool, cursor⟩ position with
  | .error e => (.error e, stage, ⟨pool, cursor⟩)
  | .ok none => (.ok position, stage, ⟨pool, cursor⟩)
  | .ok (some field) =>
    match stage.targetIndex field.descriptor pool with
    | (.error e, stage, pool) => (.error e, stage, ⟨pool, cursor⟩)
    | (.ok i, stage, pool) =>
      let (outcome, cursor) := (Cursor.writeU16 (position + 1) i).runOn cursor
      (outcome.map fun _ => position, stage, ⟨pool, cursor⟩)

/-- Forget the index of the new field in another pool. -/
def forgetOther (pool : ConstantPool) (stage : FieldRedirect) : FieldRedirect :=
  { stage with cached := stage.cached.filter fun (id, _) => id = pool.id }

instance : Stage FieldRedirect where
  reset pool _ stage := stage.forgetOther pool
  visit := redirectAccess
  clean stage := stage
  extraLocals _ := 0
  extraStack _ := 0

end FieldRedirect

end JvmClass
