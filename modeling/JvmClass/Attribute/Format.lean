import JvmClass.Attribute.Basic

/-!
# The binary form of attributes

An attribute is the index of its name, the length of its payload in 32 bits,
and the payload. The name decides how the payload is read, and a recognized
payload has to use all of its declared length. The length of an attribute is
known before it is written.
-/

namespace JvmClass

/-! ## Lengths -/

mutual

/-- The number of bytes of an attribute. -/
def Attribute.length : Attribute → Nat
  | ⟨_, body⟩ => 6 + AttributeBody.length body

/-- The number of bytes of a payload. -/
def AttributeBody.length : AttributeBody → Nat
  | .code body => Code.length body
  | .data payload => payload.length

/-- The number of bytes of a method body. -/
def Code.length : Code → Nat
  | ⟨_, _, bytes, handlers, attributes⟩ =>
    Attribute.lengthFrom (12 + bytes.size + 8 * handlers.length) attributes

/-- The number of bytes of several attributes, added to a number. -/
def Attribute.lengthFrom (n : Nat) : List Attribute → Nat
  | [] => n
  | a :: list => Attribute.lengthFrom (n + Attribute.length a) list

end

/-- The number of bytes of several attributes, without their count. -/
def Attribute.totalLength (list : List Attribute) : Nat := Attribute.lengthFrom 0 list

/-! ## Writing -/

mutual

/-- The bytes of an attribute. -/
def Attribute.encode : Attribute → Except Error (List UInt8)
  | ⟨nameIndex, body⟩ => do
    let payload ← AttributeBody.encode body
    let length ← Codec.encodeLength32 .attributeLength payload.length
    pure (Codec.bytesOfU16 nameIndex ++ length ++ payload)

/-- The bytes of a payload. -/
def AttributeBody.encode : AttributeBody → Except Error (List UInt8)
  | .code body => Code.encode body
  | .data payload => payload.encode

/-- The bytes of a method body. -/
def Code.encode : Code → Except Error (List UInt8)
  | ⟨maxStack, maxLocals, bytes, handlers, attributes⟩ => do
    let length ← Codec.encodeLength32 .codeLength bytes.size
    let handlers ← (Codec.table Handler.codec).encode handlers
    let count ← Codec.encodeLength16 .attributeCount attributes.length
    let attributes ← Attribute.encodeParts [] attributes
    pure (Codec.bytesOfU16 maxStack ++ Codec.bytesOfU16 maxLocals ++ length ++ bytes.toList ++
      handlers ++ count ++ attributes.flatten)

/-- The bytes of each of several attributes. `done` holds those of the
attributes before them, last first. -/
def Attribute.encodeParts (done : List (List UInt8)) :
    List Attribute → Except Error (List (List UInt8))
  | [] => .ok done.reverse
  | a :: list => do
    let bytes ← Attribute.encode a
    Attribute.encodeParts (bytes :: done) list

end

/-- The bytes of several attributes, behind their count. -/
def Attribute.encodeAll (list : List Attribute) : Except Error (List UInt8) := do
  let count ← Codec.encodeLength16 .attributeCount list.length
  let parts ← Attribute.encodeParts [] list
  pure (count ++ parts.flatten)

/-! ## Reading -/

/-- Reads an attribute, whose payload is read by `decodeBody`. -/
def Attribute.decodeWith (pool : ConstantPool)
    (decodeBody : AttributeKind → Decoder AttributeBody) : Decoder Attribute := do
  let nameIndex ← Codec.u16.decode
  let length ← Codec.u32.decode
  let payload ← Decoder.take length.toNat
  let name ← pool.text nameIndex
  match decodeBody (AttributeKind.ofName name) payload with
  | .ok (body, []) => pure { nameIndex, body }
  | .ok (_, rest) =>
    throw (.attributeLength length.toNat (length.toNat - rest.length) name)
  | .error e => throw e

/-- Reads attributes behind their count. -/
def Attribute.decodeAllWith (pool : ConstantPool)
    (decodeBody : AttributeKind → Decoder AttributeBody) : Decoder (List Attribute) := do
  let count ← Codec.u16.decode
  Decoder.times (Attribute.decodeWith pool decodeBody) [] count.toNat

/-- Reads a method body, the payloads of whose attributes are read by
`decodeBody`. -/
def Code.decodeWith (pool : ConstantPool)
    (decodeBody : AttributeKind → Decoder AttributeBody) : Decoder Code := do
  let maxStack ← Codec.u16.decode
  let maxLocals ← Codec.u16.decode
  let length ← Codec.u32.decode
  let bytes ← Decoder.take length.toNat
  let handlers ← (Codec.table Handler.codec).decode
  let attributes ← Attribute.decodeAllWith pool decodeBody
  pure { maxStack, maxLocals, bytes := bytes.toArray, handlers, attributes }

/-- Reads a payload in which method bodies are nested less than `depth` deep.
Deeper ones cannot be told from a payload that ends early. -/
def AttributeBody.decodeNested (pool : ConstantPool) :
    (depth : Nat) → AttributeKind → Decoder AttributeBody
  | 0, .code => throw .truncatedNumber
  | depth + 1, .code => .code <$> Code.decodeWith pool (decodeNested pool depth)
  | _, kind => .data <$> AttributeData.decode kind

/-- Reads a payload. A nested body is shorter than the one around it, so bodies
cannot be nested deeper than there are bytes. -/
def AttributeBody.decode (pool : ConstantPool) (kind : AttributeKind) :
    Decoder AttributeBody := fun bytes =>
  AttributeBody.decodeNested pool (bytes.length + 1) kind bytes

/-- Reads an attribute. -/
def Attribute.decode (pool : ConstantPool) : Decoder Attribute :=
  Attribute.decodeWith pool (AttributeBody.decode pool)

/-- Reads attributes behind their count. -/
def Attribute.decodeAll (pool : ConstantPool) : Decoder (List Attribute) :=
  Attribute.decodeAllWith pool (AttributeBody.decode pool)

/-- Reads a method body. -/
def Code.decode (pool : ConstantPool) : Decoder Code :=
  Code.decodeWith pool (AttributeBody.decode pool)

end JvmClass
