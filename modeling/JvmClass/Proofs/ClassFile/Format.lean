import JvmClass.ClassFile
import JvmClass.Proofs.ConstantPool.Format
import JvmClass.Proofs.Member.Format

/-!
# The binary form of class files

A class file that is read is written as the bytes that it was read from, if the
payloads of its texts have the one form in which texts are written. A class is
read back if its pool agrees with its index and its attributes are read back in
this pool.
-/

namespace JvmClass

open Codec

namespace ClassFile

/-- A class is read back: its pool agrees with its index, its attributes and
those of its fields are read back in this pool, and so are its methods. -/
structure Readable (c : ClassFile) : Prop where
  /-- The pool agrees with its index. -/
  pool : c.pool.Consistent
  /-- The attributes of the fields are read back. -/
  fields : ∀ f ∈ c.fields, ∀ a ∈ f.attributes, a.Readable c.pool
  /-- The methods are read back. -/
  methods : ∀ m ∈ c.methods, m.Readable c.pool
  /-- The attributes of the class are read back. -/
  attributes : ∀ a ∈ c.attributes, a.Readable c.pool

/-- The payloads of the text entries of the class file at the front of bytes.
Its pool comes behind the magic number and the two versions. -/
def textPayloads (bytes : List UInt8) : List (List UInt8) :=
  ConstantPool.payloads (bytes.drop 8)

/-- The bytes of a class are those of its parts. -/
theorem encode_eq_ok_iff {c : ClassFile} {bytes : List UInt8} :
    c.encode = .ok bytes ↔
      ∃ pool interfaces fields methods attributes,
        c.pool.encode = .ok pool ∧ (table u16).encode c.interfaces = .ok interfaces ∧
        (counted .fieldCount (Field.codec c.pool)).encode c.fields = .ok fields ∧
        (counted .methodCount (Method.codec c.pool)).encode c.methods = .ok methods ∧
        Attribute.encodeAll c.attributes = .ok attributes ∧
        bytes = bytesOfU32 magic ++ (bytesOfU16 c.minorVersion ++
          (bytesOfU16 c.majorVersion ++ (pool ++ (bytesOfU16 c.flags.bits ++
          (bytesOfU16 c.thisClass ++ (bytesOfU16 c.superClass ++ (interfaces ++
          (fields ++ (methods ++ attributes))))))))) := by
  constructor
  · intro h
    obtain ⟨pool, hpool, h⟩ := bind_eq_ok_iff.mp h
    obtain ⟨interfaces, hinterfaces, h⟩ := bind_eq_ok_iff.mp h
    obtain ⟨fieldCount, hfieldCount, h⟩ := bind_eq_ok_iff.mp h
    obtain ⟨fields, hfields, h⟩ := bind_eq_ok_iff.mp h
    obtain ⟨methodCount, hmethodCount, h⟩ := bind_eq_ok_iff.mp h
    obtain ⟨methods, hmethods, h⟩ := bind_eq_ok_iff.mp h
    obtain ⟨attributes, hattributes, h⟩ := bind_eq_ok_iff.mp h
    cases h
    refine ⟨pool, interfaces, fieldCount ++ fields, methodCount ++ methods, attributes, hpool,
      hinterfaces, ?_, ?_, hattributes, ?_⟩
    · exact bind_eq_ok_iff.mpr ⟨_, hfieldCount, bind_eq_ok_iff.mpr ⟨fields, hfields, rfl⟩⟩
    · exact bind_eq_ok_iff.mpr ⟨_, hmethodCount, bind_eq_ok_iff.mpr ⟨methods, hmethods, rfl⟩⟩
    · simp only [List.append_assoc]
  · rintro ⟨pool, interfaces, fields, methods, attributes, hpool, hinterfaces, hfields, hmethods,
      hattributes, rfl⟩
    obtain ⟨fieldCount, hfieldCount, hfields⟩ := bind_eq_ok_iff.mp hfields
    obtain ⟨fieldBytes, hfieldBytes, hfields⟩ := bind_eq_ok_iff.mp hfields
    obtain ⟨methodCount, hmethodCount, hmethods⟩ := bind_eq_ok_iff.mp hmethods
    obtain ⟨methodBytes, hmethodBytes, hmethods⟩ := bind_eq_ok_iff.mp hmethods
    cases hfields
    cases hmethods
    refine bind_eq_ok_iff.mpr ⟨pool, hpool, bind_eq_ok_iff.mpr ⟨interfaces, hinterfaces, ?_⟩⟩
    refine bind_eq_ok_iff.mpr ⟨_, hfieldCount, bind_eq_ok_iff.mpr ⟨_, hfieldBytes, ?_⟩⟩
    refine bind_eq_ok_iff.mpr ⟨_, hmethodCount, bind_eq_ok_iff.mpr ⟨_, hmethodBytes, ?_⟩⟩
    refine bind_eq_ok_iff.mpr ⟨attributes, hattributes, congrArg Except.ok ?_⟩
    simp only [List.append_assoc]

/-- The parts of a class that is read, in order. Behind the magic number and the
versions comes the pool, in which all attributes are read. -/
theorem decode_eq_ok {id : Nat} {bytes rest : List UInt8} {c : ClassFile}
    (h : decode id bytes = .ok (c, rest)) :
    ∃ pool bytes₁ bytes₂ bytes₃ bytes₄ bytes₅,
      bytes = bytesOfU32 magic ++ (bytesOfU16 c.minorVersion ++
        (bytesOfU16 c.majorVersion ++ bytes₁)) ∧
      ConstantPool.decode id bytes₁ = .ok (pool, bytesOfU16 c.flags.bits ++
        (bytesOfU16 c.thisClass ++ (bytesOfU16 c.superClass ++ bytes₂))) ∧
      c.pool = { pool with thisClass := c.thisClass } ∧
      (table u16).decode bytes₂ = .ok (c.interfaces, bytes₃) ∧
      (counted .fieldCount (Field.codec c.pool)).decode bytes₃ = .ok (c.fields, bytes₄) ∧
      (counted .methodCount (Method.codec c.pool)).decode bytes₄ = .ok (c.methods, bytes₅) ∧
      Attribute.decodeAll c.pool bytes₅ = .ok (c.attributes, rest) := by
  obtain ⟨found, after₁, hfound, h⟩ := Decoder.bind_eq_ok_iff.mp h
  by_cases hmagic : found ≠ magic
  · rw [if_pos hmagic] at h
    cases h
  rw [if_neg hmagic] at h
  obtain ⟨minorVersion, after₂, hminor, h⟩ := Decoder.bind_eq_ok_iff.mp h
  obtain ⟨majorVersion, after₃, hmajor, h⟩ := Decoder.bind_eq_ok_iff.mp h
  obtain ⟨pool, after₄, hpool, h⟩ := Decoder.bind_eq_ok_iff.mp h
  obtain ⟨flags, after₅, hflags, h⟩ := Decoder.bind_eq_ok_iff.mp h
  obtain ⟨thisClass, after₆, hthis, h⟩ := Decoder.bind_eq_ok_iff.mp h
  obtain ⟨superClass, after₇, hsuper, h⟩ := Decoder.bind_eq_ok_iff.mp h
  obtain ⟨interfaces, after₈, hinterfaces, h⟩ := Decoder.bind_eq_ok_iff.mp h
  obtain ⟨fieldCount, after₉, hfieldCount, h⟩ := Decoder.bind_eq_ok_iff.mp h
  obtain ⟨fields, after₁₀, hfields, h⟩ := Decoder.bind_eq_ok_iff.mp h
  obtain ⟨methodCount, after₁₁, hmethodCount, h⟩ := Decoder.bind_eq_ok_iff.mp h
  obtain ⟨methods, after₁₂, hmethods, h⟩ := Decoder.bind_eq_ok_iff.mp h
  obtain ⟨attributes, after₁₃, hattributes, h⟩ := Decoder.bind_eq_ok_iff.mp h
  cases h
  obtain ⟨part₁, hpart₁, rfl⟩ := exact_u32.writesBack bytes found after₁ hfound
  obtain ⟨part₂, hpart₂, rfl⟩ := exact_u16.writesBack after₁ minorVersion after₂ hminor
  obtain ⟨part₃, hpart₃, rfl⟩ := exact_u16.writesBack after₂ majorVersion after₃ hmajor
  obtain ⟨part₅, hpart₅, rfl⟩ := AccessFlags.exact.writesBack after₄ flags after₅ hflags
  obtain ⟨part₆, hpart₆, rfl⟩ := exact_u16.writesBack after₅ thisClass after₆ hthis
  obtain ⟨part₇, hpart₇, rfl⟩ := exact_u16.writesBack after₆ superClass after₇ hsuper
  cases hpart₁
  cases hpart₂
  cases hpart₃
  cases hpart₅
  cases hpart₆
  cases hpart₇
  have hfound : found = magic := Decidable.not_not.mp hmagic
  subst hfound
  exact ⟨pool, after₃, after₇, after₈, after₁₀, after₁₂, rfl, hpool, rfl, hinterfaces,
    Decoder.bind_eq_ok_iff.mpr ⟨fieldCount, after₉, hfieldCount, hfields⟩,
    Decoder.bind_eq_ok_iff.mpr ⟨methodCount, after₁₁, hmethodCount, hmethods⟩, hattributes⟩

/-- A class that is read is read back. -/
theorem readable_of_decode {id : Nat} {bytes rest : List UInt8} {c : ClassFile}
    (h : decode id bytes = .ok (c, rest)) : c.Readable := by
  obtain ⟨pool, bytes₁, bytes₂, bytes₃, bytes₄, bytes₅, -, hpool, howner, -, hfields, hmethods,
    hattributes⟩ := decode_eq_ok h
  have hread := ConstantPool.consistent_of_decode hpool
  refine ⟨?_, ?_, ?_, Attribute.readable_of_decodeAll hattributes⟩
  · rw [howner]
    exact hread.owned _
  · exact forall_mem_of_counted (fun _ _ _ hread => Field.readable_of_decode hread) hfields
  · exact forall_mem_of_counted (fun _ _ _ hread => Method.readable_of_decode hread) hmethods

/-- A class file that is read is written as the bytes that it was read from, if
the payloads of its texts have the one form in which texts are written. -/
theorem encode_of_canonical {id : Nat} {bytes rest : List UInt8} {c : ClassFile}
    (h : decode id bytes = .ok (c, rest))
    (hcanonical : ∀ payload ∈ textPayloads bytes, ModifiedUtf8.IsCanonical payload) :
    ∃ written, bytes = written ++ rest ∧ c.encode = .ok written := by
  obtain ⟨pool, bytes₁, bytes₂, bytes₃, bytes₄, bytes₅, rfl, hpool, howner, hinterfaces,
    hfields, hmethods, hattributes⟩ := decode_eq_ok h
  have hpayloads : ∀ payload ∈ ConstantPool.payloads bytes₁, ModifiedUtf8.IsCanonical payload :=
    hcanonical
  obtain ⟨part₁, hpart₁, rfl⟩ := ConstantPool.encode_of_decode hpool hpayloads
  obtain ⟨part₂, hpart₂, rfl⟩ := exact_u16.table.writesBack bytes₂ c.interfaces bytes₃ hinterfaces
  obtain ⟨part₃, hpart₃, rfl⟩ :=
    writesBack_counted (Field.writesBack c.pool) bytes₃ c.fields bytes₄ hfields
  obtain ⟨part₄, hpart₄, rfl⟩ :=
    writesBack_counted (Method.writesBack c.pool) bytes₄ c.methods bytes₅ hmethods
  obtain ⟨part₅, hpart₅, rfl⟩ := Attribute.encodeAll_of_decodeAll hattributes
  have hpart : c.pool.encode = .ok part₁ := by
    rw [howner]
    exact hpart₁
  refine ⟨_, ?_, encode_eq_ok_iff.mpr
    ⟨part₁, part₂, part₃, part₄, part₅, hpart, hpart₂, hpart₃, hpart₄, hpart₅, rfl⟩⟩
  simp only [List.append_assoc]

/-- A class file with two equal entries and a wide one in its pool, a body that
carries a stack map and another body, and an attribute of no recognized kind. -/
def nestedBytes : List UInt8 :=
  [0xCA, 0xFE, 0xBA, 0xBE, 0, 0, 0, 52] ++
    [0, 8, 1, 0, 4, 67, 111, 100, 101, 1, 0, 1, 65, 7, 0, 2, 7, 0, 2] ++
    [5, 0, 0, 0, 0, 0, 0, 0, 7] ++
    [1, 0, 13, 83, 116, 97, 99, 107, 77, 97, 112, 84, 97, 98, 108, 101] ++
    [0, 0x21, 0, 3, 0, 4, 0, 0, 0, 0, 0, 1] ++
    [0, 1, 0, 2, 0, 2, 0, 1] ++
    [0, 1, 0, 0, 0, 40, 0, 1, 0, 1, 0, 0, 0, 1, 177, 0, 0, 0, 2] ++
    [0, 7, 0, 0, 0, 3, 0, 1, 0] ++
    [0, 1, 0, 0, 0, 12, 0, 0, 0, 0, 0, 0, 0, 0, 0, 0, 0, 0] ++
    [0, 1, 0, 2, 0, 0, 0, 2, 1, 2]

/-- The class file is read, and written as the same bytes. -/
theorem encode_of_canonical_nestedBytes :
    ∃ c, decode 0 nestedBytes = .ok (c, []) ∧ c.encode = .ok nestedBytes := by
  obtain ⟨c, hc⟩ : ∃ c, decode 0 nestedBytes = .ok (c, []) := ⟨_, rfl⟩
  have hpayloads : textPayloads nestedBytes =
      ["Code", "A", "StackMapTable"].map ModifiedUtf8.encode := by rfl
  have hcanonical : ∀ payload ∈ textPayloads nestedBytes, ModifiedUtf8.IsCanonical payload := by
    intro payload hp
    rw [hpayloads] at hp
    obtain ⟨text, -, rfl⟩ := List.mem_map.mp hp
    exact ⟨text, ModifiedUtf8.decode_encode text, rfl⟩
  obtain ⟨written, hwritten, hencode⟩ := encode_of_canonical hc hcanonical
  rw [List.append_nil] at hwritten
  exact ⟨c, hc, hwritten ▸ hencode⟩

/-- A class that is read back is read from its bytes with the same slots in its
pool, and nothing else about it changes. -/
theorem decode_encode {c : ClassFile} (hc : c.Readable) {bytes : List UInt8}
    (h : c.encode = .ok bytes) (id : Nat) (rest : List UInt8) :
    ∃ pool, pool.slots = c.pool.slots ∧
      decode id (bytes ++ rest) = .ok ({ c with pool }, rest) := by
  obtain ⟨part₁, part₂, part₃, part₄, part₅, hpool, hinterfaces, hfields, hmethods, hattributes,
    rfl⟩ := encode_eq_ok_iff.mp h
  simp only [List.append_assoc]
  obtain ⟨found, hfound, hslots⟩ := ConstantPool.decode_encode hc.pool hpool id
    (bytesOfU16 c.flags.bits ++ (bytesOfU16 c.thisClass ++ (bytesOfU16 c.superClass ++
      (part₂ ++ (part₃ ++ (part₄ ++ (part₅ ++ rest)))))))
  let pool : ConstantPool := { found with thisClass := c.thisClass }
  have htexts : ∀ i name, c.pool.text i = .ok name → pool.text i = .ok name := by
    intro i name hname
    have hsame : pool.text i = c.pool.text i := ConstantPool.text_congr hslots i
    rw [hsame, hname]
  have hfieldsBack := readsBack_counted (fun f hf => Field.readsBack
    fun a ha => (hc.fields f hf a ha).mono htexts) part₃ hfields (part₄ ++ (part₅ ++ rest))
  have hmethodsBack := readsBack_counted (fun m hm => Method.readsBack
    ((hc.methods m hm).mono htexts)) part₄ hmethods (part₅ ++ rest)
  have hattributesBack := Attribute.decodeAll_encodeAll
    (fun a ha => (hc.attributes a ha).mono htexts) hattributes rest
  have hinterfacesBack := exact_u16.table.readsBack c.interfaces part₂ hinterfaces
    (part₃ ++ (part₄ ++ (part₅ ++ rest)))
  obtain ⟨fieldCount, _, hfieldCount, hfieldsBack⟩ := Decoder.bind_eq_ok_iff.mp hfieldsBack
  obtain ⟨methodCount, _, hmethodCount, hmethodsBack⟩ := Decoder.bind_eq_ok_iff.mp hmethodsBack
  refine ⟨pool, hslots, ?_⟩
  refine Decoder.bind_eq_ok_iff.mpr ⟨magic, _, exact_u32.readsBack magic _ rfl _, ?_⟩
  rw [if_neg (not_not_intro rfl)]
  refine Decoder.bind_eq_ok_iff.mpr ⟨_, _, exact_u16.readsBack c.minorVersion _ rfl _, ?_⟩
  refine Decoder.bind_eq_ok_iff.mpr ⟨_, _, exact_u16.readsBack c.majorVersion _ rfl _, ?_⟩
  refine Decoder.bind_eq_ok_iff.mpr ⟨found, _, hfound, ?_⟩
  refine Decoder.bind_eq_ok_iff.mpr ⟨_, _, AccessFlags.exact.readsBack c.flags _ rfl _, ?_⟩
  refine Decoder.bind_eq_ok_iff.mpr ⟨_, _, exact_u16.readsBack c.thisClass _ rfl _, ?_⟩
  refine Decoder.bind_eq_ok_iff.mpr ⟨_, _, exact_u16.readsBack c.superClass _ rfl _, ?_⟩
  refine Decoder.bind_eq_ok_iff.mpr ⟨_, _, hinterfacesBack, ?_⟩
  refine Decoder.bind_eq_ok_iff.mpr ⟨fieldCount, _, hfieldCount, ?_⟩
  refine Decoder.bind_eq_ok_iff.mpr ⟨_, _, hfieldsBack, ?_⟩
  refine Decoder.bind_eq_ok_iff.mpr ⟨methodCount, _, hmethodCount, ?_⟩
  refine Decoder.bind_eq_ok_iff.mpr ⟨_, _, hmethodsBack, ?_⟩
  exact Decoder.bind_eq_ok_iff.mpr ⟨_, _, hattributesBack, rfl⟩

end ClassFile

end JvmClass
