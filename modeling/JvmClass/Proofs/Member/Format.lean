import JvmClass.Member.Field
import JvmClass.Member.Method
import JvmClass.Proofs.Attribute.Format

/-!
# The binary form of fields and methods

Fields and methods have the same form: flags, the indices of name and
descriptor, and attributes. They are written back when they are read, and read
back in a pool in which their attributes are.
-/

namespace JvmClass

open Codec

/-- Access flags keep both laws. -/
theorem AccessFlags.exact : AccessFlags.codec.Exact :=
  exact_u16.convert (fun _ => rfl) fun _ => rfl

/-! ## Members -/

section Member

variable {α : Type} (make : AccessFlags → UInt16 → UInt16 → List Attribute → α)

/-- Reads the parts of a member, which `make` puts together. -/
def decodeMember (pool : ConstantPool) : Decoder α := do
  let flags ← AccessFlags.codec.decode
  let nameIndex ← u16.decode
  let descriptorIndex ← u16.decode
  let attributes ← Attribute.decodeAll pool
  pure (make flags nameIndex descriptorIndex attributes)

/-- The bytes of a member, given its parts. -/
def encodeMember (flags : AccessFlags) (nameIndex descriptorIndex : UInt16)
    (attributes : List Attribute) : Except Error (List UInt8) := do
  let attributes ← Attribute.encodeAll attributes
  pure (bytesOfU16 flags.bits ++ bytesOfU16 nameIndex ++ bytesOfU16 descriptorIndex ++ attributes)

variable {pool : ConstantPool}

/-- The parts of a member that is read are written back, and its attributes are
read back. -/
theorem encodeMember_of_decodeMember {bytes rest : List UInt8} {member : α}
    (h : decodeMember make pool bytes = .ok (member, rest)) :
    ∃ flags nameIndex descriptorIndex attributes,
      member = make flags nameIndex descriptorIndex attributes ∧
      (∀ a ∈ attributes, a.Readable pool) ∧
      ∃ written, encodeMember flags nameIndex descriptorIndex attributes = .ok written ∧
        bytes = written ++ rest := by
  obtain ⟨flags, bytes₁, hflags, h⟩ := Decoder.bind_eq_ok_iff.mp h
  obtain ⟨nameIndex, bytes₂, hname, h⟩ := Decoder.bind_eq_ok_iff.mp h
  obtain ⟨descriptorIndex, bytes₃, hdescriptor, h⟩ := Decoder.bind_eq_ok_iff.mp h
  obtain ⟨attributes, bytes₄, hattributes, h⟩ := Decoder.bind_eq_ok_iff.mp h
  obtain ⟨rfl, rfl⟩ := Decoder.pure_eq_ok_iff.mp h
  obtain ⟨part₁, hpart₁, rfl⟩ := AccessFlags.exact.writesBack bytes flags bytes₁ hflags
  obtain ⟨part₂, hpart₂, rfl⟩ := exact_u16.writesBack bytes₁ nameIndex bytes₂ hname
  obtain ⟨part₃, hpart₃, rfl⟩ := exact_u16.writesBack bytes₂ descriptorIndex bytes₃ hdescriptor
  obtain ⟨part₄, hpart₄, rfl⟩ := Attribute.encodeAll_of_decodeAll hattributes
  cases hpart₁
  cases hpart₂
  cases hpart₃
  refine ⟨flags, nameIndex, descriptorIndex, attributes, rfl,
    Attribute.readable_of_decodeAll hattributes, _, bind_eq_ok_iff.mpr ⟨part₄, hpart₄, rfl⟩, ?_⟩
  simp only [List.append_assoc]

/-- A member is read back from the bytes of its parts. -/
theorem decodeMember_encodeMember {flags : AccessFlags} {nameIndex descriptorIndex : UInt16}
    {attributes : List Attribute} (hattributes : ∀ a ∈ attributes, a.Readable pool)
    {bytes : List UInt8}
    (h : encodeMember flags nameIndex descriptorIndex attributes = .ok bytes)
    (rest : List UInt8) : decodeMember make pool (bytes ++ rest) =
      .ok (make flags nameIndex descriptorIndex attributes, rest) := by
  obtain ⟨stop, hstop, h⟩ := bind_eq_ok_iff.mp h
  cases h
  have hread := Attribute.decodeAll_encodeAll hattributes hstop rest
  simp only [List.append_assoc]
  refine Decoder.bind_eq_ok_iff.mpr ⟨flags, _, AccessFlags.exact.readsBack flags _ rfl _, ?_⟩
  refine Decoder.bind_eq_ok_iff.mpr ⟨nameIndex, _, exact_u16.readsBack nameIndex _ rfl _, ?_⟩
  refine Decoder.bind_eq_ok_iff.mpr
    ⟨descriptorIndex, _, exact_u16.readsBack descriptorIndex _ rfl _, ?_⟩
  exact Decoder.bind_eq_ok_iff.mpr ⟨attributes, rest, hread, rfl⟩

end Member

/-- A method is read back in a pool: it has a list of attributes, which are read
back. -/
def Method.Readable (pool : ConstantPool) (m : Method) : Prop :=
  ∃ list, m.attributes = some list ∧ ∀ a ∈ list, a.Readable pool

/-- A method that is read back in a pool is read back in another one that has the
same names at the same places. -/
theorem Method.Readable.mono {pool next : ConstantPool} {m : Method} (h : m.Readable pool)
    (hnames : ∀ i name, pool.text i = .ok name → next.text i = .ok name) : m.Readable next := by
  obtain ⟨list, hlist, hattributes⟩ := h
  exact ⟨list, hlist, fun a ha => (hattributes a ha).mono hnames⟩

/-- The binary form of a field. -/
def Field.codec (pool : ConstantPool) : Codec Field := ⟨Field.decode pool, Field.encode⟩

/-- The binary form of a method. -/
def Method.codec (pool : ConstantPool) : Codec Method := ⟨Method.decode pool, Method.encode⟩

section Laws

variable {pool : ConstantPool}

/-- A field that is read has attributes that are read back. -/
theorem Field.readable_of_decode {bytes rest : List UInt8} {f : Field}
    (h : Field.decode pool bytes = .ok (f, rest)) : ∀ a ∈ f.attributes, a.Readable pool := by
  obtain ⟨flags, n, d, attributes, rfl, hattributes, -⟩ := encodeMember_of_decodeMember Field.mk h
  exact hattributes

/-- Fields are written back. -/
theorem Field.writesBack (pool : ConstantPool) : (Field.codec pool).WritesBack := by
  intro bytes f rest h
  obtain ⟨flags, n, d, attributes, rfl, -, hwritten⟩ := encodeMember_of_decodeMember Field.mk h
  exact hwritten

/-- A field is read back if its attributes are. -/
theorem Field.readsBack {f : Field} (hf : ∀ a ∈ f.attributes, a.Readable pool) :
    (Field.codec pool).ReadsBack f :=
  fun _ hbytes rest => decodeMember_encodeMember Field.mk hf hbytes rest

/-- A method that is read is read back. -/
theorem Method.readable_of_decode {bytes rest : List UInt8} {m : Method}
    (h : Method.decode pool bytes = .ok (m, rest)) : m.Readable pool := by
  obtain ⟨flags, n, d, attributes, rfl, hattributes, -⟩ :=
    encodeMember_of_decodeMember (fun flags n d list => Method.mk flags n d (some list)) h
  exact ⟨attributes, rfl, hattributes⟩

/-- Methods are written back. -/
theorem Method.writesBack (pool : ConstantPool) : (Method.codec pool).WritesBack := by
  intro bytes m rest h
  obtain ⟨flags, n, d, attributes, rfl, -, hwritten⟩ :=
    encodeMember_of_decodeMember (fun flags n d list => Method.mk flags n d (some list)) h
  exact hwritten

/-- A method is read back if it has a list of attributes that are. -/
theorem Method.readsBack {m : Method} (hm : m.Readable pool) :
    (Method.codec pool).ReadsBack m := by
  intro bytes hbytes rest
  obtain ⟨flags, n, d, attributes⟩ := m
  obtain ⟨list, hlist, hreadable⟩ := hm
  cases hlist
  exact decodeMember_encodeMember (fun flags n d list => Method.mk flags n d (some list))
    hreadable hbytes rest

end Laws

end JvmClass
