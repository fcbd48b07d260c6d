import JvmClass.ConstantPool.Basic

/-!
# Looking into a constant pool

Typed views of the entries of a pool. A view fails when its index holds no
entry, and when the entry, or one that it refers to, is of another kind.
-/

namespace JvmClass

/-- A reference to a field or method, with its names. -/
structure MemberRef where
  /-- What is referred to. -/
  kind : MemberKind
  /-- The index of the class entry. -/
  classIndex : UInt16
  /-- The index of the entry with name and descriptor. -/
  nameAndTypeIndex : UInt16
  /-- The name of the class. -/
  className : String
  /-- The name of the member. -/
  name : String
  /-- The descriptor of the member. -/
  descriptor : String
  deriving DecidableEq, Repr

namespace ConstantPool

variable (pool : ConstantPool)

/-- The entry at an index. Zero, the second slot of a wide entry and whatever
lies past the end hold none. -/
def entry (i : UInt16) : Except Error Constant :=
  match pool.slots[i.toNat]? with
  | some (some c) => .ok c
  | _ => .error (.malformed (.poolIndex i))

/-- What a view shows of the entry at an index, if the entry has its kind. -/
def expect {α : Type} (kind : ConstantKind) (view : Constant → Option α) (i : UInt16) :
    Except Error α := do
  let c ← pool.entry i
  match view c with
  | some a => pure a
  | none => throw (.mismatch i (.kind kind) c.kind)

/-- A text. -/
def text (i : UInt16) : Except Error String :=
  pool.expect .text (fun | .text s => some s | _ => none) i

/-- A 32-bit integer. -/
def integer (i : UInt16) : Except Error Int32 :=
  pool.expect .integer (fun | .integer n => some n | _ => none) i

/-- The bits of a single precision number. -/
def float (i : UInt16) : Except Error UInt32 :=
  pool.expect .float (fun | .float bits => some bits | _ => none) i

/-- A 64-bit integer. -/
def long (i : UInt16) : Except Error Int64 :=
  pool.expect .long (fun | .long n => some n | _ => none) i

/-- The bits of a double precision number. -/
def double (i : UInt16) : Except Error UInt64 :=
  pool.expect .double (fun | .double bits => some bits | _ => none) i

/-- The index of the text that a symbol entry names. -/
def symbolText (kind : SymbolKind) (i : UInt16) : Except Error UInt16 :=
  pool.expect (.symbol kind) (fun | .symbol k t => if k = kind then some t else none | _ => none) i

/-- The text that a symbol entry names. -/
def symbol (kind : SymbolKind) (i : UInt16) : Except Error String := do
  pool.text (← pool.symbolText kind i)

/-- The internal name, or array descriptor, of a class. -/
def className (i : UInt16) : Except Error String := pool.symbol .classInfo i

/-- The names of several classes. -/
def classNames (classes : List UInt16) : Except Error (List String) :=
  classes.mapM pool.className

/-- The name of the owner of the pool. -/
def ownerName : Except Error String := pool.className pool.thisClass

/-- The indices of a name and its descriptor. -/
def nameAndType (i : UInt16) : Except Error (UInt16 × UInt16) :=
  pool.expect .nameAndType (fun | .nameAndType n d => some (n, d) | _ => none) i

/-- The name in a name with descriptor. -/
def nameOf (i : UInt16) : Except Error String := do
  pool.text (← pool.nameAndType i).1

/-- The descriptor in a name with descriptor. -/
def descriptorOf (i : UInt16) : Except Error String := do
  pool.text (← pool.nameAndType i).2

/-- The kind of a member entry and the indices it holds. With a kind given,
entries of the other kinds are refused. -/
def memberIndices (kind? : Option MemberKind) (i : UInt16) :
    Except Error (MemberKind × UInt16 × UInt16) := do
  let wanted : Expected := match kind? with
    | some kind => .kind (.member kind)
    | none => .memberReference
  match ← pool.entry i with
  | .member kind c n =>
    if kind?.all (· = kind) then pure (kind, c, n)
    else throw (.mismatch i wanted (.member kind))
  | c => throw (.mismatch i wanted c.kind)

/-- A member with its names. With a kind given, others are refused. -/
def memberOf (kind? : Option MemberKind) (i : UInt16) : Except Error MemberRef := do
  let (kind, classIndex, nameAndTypeIndex) ← pool.memberIndices kind? i
  let className ← pool.className classIndex
  let name ← pool.nameOf nameAndTypeIndex
  let descriptor ← pool.descriptorOf nameAndTypeIndex
  pure { kind, classIndex, nameAndTypeIndex, className, name, descriptor }

/-- A member of any kind with its names. -/
def member (i : UInt16) : Except Error MemberRef := pool.memberOf none i

/-- A field with its names. -/
def field (i : UInt16) : Except Error MemberRef := pool.memberOf (some .field) i

/-- The number of a method handle's kind and the member it refers to. -/
def methodHandle (i : UInt16) : Except Error (UInt8 × UInt16) :=
  pool.expect .methodHandle (fun | .methodHandle k r => some (k, r) | _ => none) i

/-- The kind of a method handle. -/
def handleKind (i : UInt16) : Except Error HandleKind := do
  let (code, _) ← pool.methodHandle i
  match HandleKind.ofCode? code with
  | some kind => pure kind
  | none => throw (.unknownHandleKind code)

/-- The index of the member that a method handle refers to. -/
def handleReference (i : UInt16) : Except Error UInt16 := do
  pure (← pool.methodHandle i).2

/-- The place of a dynamic entry's bootstrap method in the table, and the index
of its name with descriptor. -/
def dynamic (kind : DynamicKind) (i : UInt16) : Except Error (UInt16 × UInt16) :=
  pool.expect (.dynamic kind)
    (fun | .dynamic k b n => if k = kind then some (b, n) else none | _ => none) i

/-- The name of a dynamic entry. -/
def dynamicName (kind : DynamicKind) (i : UInt16) : Except Error String := do
  pool.nameOf (← pool.dynamic kind i).2

/-- The descriptor of a dynamic entry. -/
def dynamicDescriptor (kind : DynamicKind) (i : UInt16) : Except Error String := do
  pool.descriptorOf (← pool.dynamic kind i).2

end ConstantPool

end JvmClass
