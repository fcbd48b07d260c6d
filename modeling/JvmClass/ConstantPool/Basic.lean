import JvmClass.Constant.Basic
import Std.Data.HashMap

/-!
# Constant pools

Every class owns one pool of constants, and indices have a meaning only in
their pool. Entries are interned: an entry equal to one that is already stored
is not stored again, and its index is that of the stored one. Nothing is ever
moved or removed, so an index stays valid for the life of the pool.
-/

namespace JvmClass

/-- A constant pool. -/
structure ConstantPool where
  /-- The identity of the pool. A copy of a pool is another pool. -/
  id : Nat
  /-- The slots. Slot zero and the second slot of a wide entry are empty. -/
  slots : Array (Option Constant)
  /-- The first slot of every stored entry. -/
  index : Std.HashMap Constant UInt16
  /-- The class entry of the owner of the pool, or zero if it is not known. -/
  thisClass : UInt16

namespace ConstantPool

/-- The pool that holds no entry and has no owner. -/
def empty (id : Nat) : ConstantPool := ⟨id, #[none], {}, 0⟩

/-- The same entries under another identity. -/
def withId (pool : ConstantPool) (id : Nat) : ConstantPool := { pool with id }

/-- The number of slots, which is one more than the largest index. -/
def size (pool : ConstantPool) : Nat := pool.slots.size

/-- The entries with their indices, in order. -/
def entries (pool : ConstantPool) : List (Nat × Constant) :=
  pool.slots.toList.zipIdx.filterMap fun (slot, i) => slot.map fun c => (i, c)

/-- Store an entry in the next slots. An equal entry that is stored already
keeps its place in the index. -/
def push (pool : ConstantPool) (c : Constant) : ConstantPool :=
  let ⟨id, slots, index, thisClass⟩ := pool
  let i := UInt16.ofNat slots.size
  let slots := slots.push (some c)
  ⟨id, if c.isWide then slots.push none else slots, index.insertIfNew c i, thisClass⟩

/-- The index of an entry, which is stored first if it is new. A pool has at
most 65535 slots. -/
def intern (c : Constant) : Edit ConstantPool UInt16 := ExceptT.mk fun pool =>
  match pool.index[c]? with
  | some i => (.ok i, pool)
  | none =>
    let i := pool.slots.size
    if i + c.slots ≤ 65535 then (.ok (UInt16.ofNat i), pool.push c)
    else (.error (.overflow .constantPool), pool)

/-! ## Entries with the entries they refer to -/

/-- The index of a text. -/
def internText (text : String) : Edit ConstantPool UInt16 := intern (.text text)

/-- The index of an entry that names a text. -/
def internSymbol (kind : SymbolKind) (text : String) : Edit ConstantPool UInt16 := do
  let i ← internText text
  intern (.symbol kind i)

/-- The index of a class, given by internal name or array descriptor. -/
def internClass (name : String) : Edit ConstantPool UInt16 := internSymbol .classInfo name

/-- The index of a name with a descriptor. -/
def internNameAndType (name descriptor : String) : Edit ConstantPool UInt16 := do
  let n ← internText name
  let d ← internText descriptor
  intern (.nameAndType n d)

/-- The index of a reference to a member of a class. -/
def internMember (kind : MemberKind) (owner name descriptor : String) :
    Edit ConstantPool UInt16 := do
  let c ← internClass owner
  let n ← internNameAndType name descriptor
  intern (.member kind c n)

/-- The pool of a new class, with the class as its owner. -/
def ofClass (id : Nat) (name : String) : Except Error ConstantPool :=
  match (internClass name).runOn (empty id) with
  | (.ok i, pool) => .ok { pool with thisClass := i }
  | (.error e, _) => .error e

/-! ## Binary form -/

/-- Reads entries until `count` slots are filled. Each entry fills at least
one, so as many steps as slots are enough. -/
def decodeEntries (count : Nat) : (steps : Nat) → ConstantPool → Decoder ConstantPool
  | 0, pool => pure pool
  | steps + 1, pool => fun bytes =>
    if count ≤ pool.size then .ok (pool, bytes)
    else
      match Constant.codec.decode bytes with
      | .error e => .error e
      | .ok (c, rest) =>
        if c.isWide ∧ count ≤ pool.size + 1 then
          .error (.malformed (.wideEntry pool.size count))
        else decodeEntries count steps (pool.push c) rest

/-- Reads a pool: the number of its slots, then its entries. Equal entries
stay apart. -/
def decode (id : Nat) : Decoder ConstantPool := do
  let count ← Codec.u16.decode
  if count = 0 then throw (.malformed .zeroPoolCount)
  decodeEntries count.toNat count.toNat (empty id)

/-- The bytes of a pool. -/
def encode (pool : ConstantPool) : Except Error (List UInt8) := do
  let bytes ← Codec.encodeAll Constant.codec.encode (pool.entries.map Prod.snd)
  pure (Codec.bytesOfU16 (UInt16.ofNat pool.size) ++ bytes)

end ConstantPool

end JvmClass
