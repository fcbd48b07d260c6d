import JvmClass.Binary.Codec

/-!
# Constants

The entries of a constant pool, with unresolved indices of other entries.
Floating point constants are kept as their bits, so that equal entries are
exactly those that are written alike.
-/

namespace JvmClass

/-- An entry of a constant pool. Indices refer to entries of the same pool. -/
inductive Constant where
  /-- A text. -/
  | text (value : String)
  /-- A 32-bit integer. -/
  | integer (value : Int32)
  /-- A single precision number, by its bits. -/
  | float (bits : UInt32)
  /-- A 64-bit integer. -/
  | long (value : Int64)
  /-- A double precision number, by its bits. -/
  | double (bits : UInt64)
  /-- An entry that names one text entry. -/
  | symbol (kind : SymbolKind) (text : UInt16)
  /-- A field or method of the class at `owner`. -/
  | member (kind : MemberKind) (owner nameAndType : UInt16)
  /-- A name with a descriptor. -/
  | nameAndType (name descriptor : UInt16)
  /-- A method handle: the number of its kind and the member it refers to. -/
  | methodHandle (kind : UInt8) (reference : UInt16)
  /-- A constant or call site: its place in the table of bootstrap methods. -/
  | dynamic (kind : DynamicKind) (bootstrap nameAndType : UInt16)
  deriving DecidableEq, Hashable, Repr

namespace Constant

/-- The kind of an entry. -/
def kind : Constant → ConstantKind
  | .text _ => .text
  | .integer _ => .integer
  | .float _ => .float
  | .long _ => .long
  | .double _ => .double
  | .symbol k _ => .symbol k
  | .member k _ _ => .member k
  | .nameAndType _ _ => .nameAndType
  | .methodHandle _ _ => .methodHandle
  | .dynamic k _ _ => .dynamic k

/-- Long and double entries take two slots. -/
def isWide (c : Constant) : Bool := c.kind.isWide

/-- The number of slots that an entry takes. -/
def slots (c : Constant) : Nat := if c.isWide then 2 else 1

/-- Two indices in a row. -/
def indices : Codec (UInt16 × UInt16) := Codec.u16.pair Codec.u16

/-- Reads what follows the tag of a kind. -/
def decodeBody : ConstantKind → Decoder Constant
  | .text => .text <$> Codec.text.decode
  | .integer => .integer <$> Codec.i32.decode
  | .float => .float <$> Codec.u32.decode
  | .long => .long <$> Codec.i64.decode
  | .double => .double <$> Codec.u64.decode
  | .symbol k => .symbol k <$> Codec.u16.decode
  | .member k => (fun (c, n) => .member k c n) <$> indices.decode
  | .nameAndType => (fun (n, d) => .nameAndType n d) <$> indices.decode
  | .methodHandle => (fun (k, r) => .methodHandle k r) <$> (Codec.u8.pair Codec.u16).decode
  | .dynamic k => (fun (b, n) => .dynamic k b n) <$> indices.decode

/-- The bytes that follow the tag. -/
def encodeBody : Constant → Except Error (List UInt8)
  | .text s => Codec.text.encode s
  | .integer n => Codec.i32.encode n
  | .float bits => Codec.u32.encode bits
  | .long n => Codec.i64.encode n
  | .double bits => Codec.u64.encode bits
  | .symbol _ i => Codec.u16.encode i
  | .member _ c n => indices.encode (c, n)
  | .nameAndType n d => indices.encode (n, d)
  | .methodHandle k r => (Codec.u8.pair Codec.u16).encode (k, r)
  | .dynamic _ b n => indices.encode (b, n)

/-- An entry is its tag followed by its fields. -/
def codec : Codec Constant where
  decode := do
    let tag ← Codec.u8.decode
    match ConstantKind.ofTag? tag with
    | some kind => decodeBody kind
    | none => throw (.malformed (.tag tag.toNat))
  encode c := do
    let body ← c.encodeBody
    pure (c.kind.tag :: body)

end Constant

end JvmClass
