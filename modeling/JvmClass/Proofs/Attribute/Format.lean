import JvmClass.Attribute.Format
import JvmClass.Proofs.Attribute.Data

/-!
# The binary form of attributes

Attributes can be nested to any depth. The laws of a reader of payloads give
those of the attributes around them, and these give the laws of payloads that are
nested one level deeper. An attribute that is read is written back. An attribute
is read back in a pool in which its name leads to its kind, and the names of all
attributes inside it to theirs.
-/

namespace JvmClass

open Codec

/-! ## Bytes -/

/-- Attributes are written one after the other. -/
theorem Attribute.encodeParts_eq (done : List (List UInt8)) (list : List Attribute) :
    Attribute.encodeParts done list =
      (fun parts => done.reverse ++ parts) <$> list.mapM Attribute.encode := by
  induction list generalizing done with
  | nil =>
    rw [Attribute.encodeParts, List.mapM_nil]
    exact congrArg Except.ok (List.append_nil _).symm
  | cons a list ih =>
    rw [Attribute.encodeParts, List.mapM_cons]
    cases ha : a.encode with
    | error e => rfl
    | ok bytes =>
      show Attribute.encodeParts (bytes :: done) list = _
      rw [ih]
      cases list.mapM Attribute.encode with
      | error e => rfl
      | ok parts =>
        show Except.ok ((bytes :: done).reverse ++ parts) = _
        rw [List.reverse_cons, List.append_assoc]
        rfl

/-- The binary form of an attribute, given a reader of payloads. -/
def Attribute.codecWith (pool : ConstantPool)
    (decodeBody : AttributeKind → Decoder AttributeBody) : Codec Attribute :=
  ⟨Attribute.decodeWith pool decodeBody, Attribute.encode⟩

/-- Attributes behind their count are counted entries, however they are read. -/
theorem Attribute.encodeAll_eq (decode : Decoder Attribute) (list : List Attribute) :
    Attribute.encodeAll list =
      (counted .attributeCount ⟨decode, Attribute.encode⟩).encode list := by
  unfold Attribute.encodeAll
  rw [Attribute.encodeParts_eq]
  show _ = (do
    let count ← encodeLength16 .attributeCount list.length
    let bytes ← Codec.encodeAll Attribute.encode list
    pure (count ++ bytes))
  unfold Codec.encodeAll
  cases list.mapM Attribute.encode <;> rfl

/-- The bytes of an attribute are those of its name, its length and its
payload. -/
theorem Attribute.encode_eq_ok_iff {a : Attribute} {bytes : List UInt8} :
    a.encode = .ok bytes ↔
      ∃ payload, a.body.encode = .ok payload ∧ payload.length ≤ 4294967295 ∧
        bytes = bytesOfU16 a.nameIndex ++
          (bytesOfU32 (UInt32.ofNat payload.length) ++ payload) := by
  obtain ⟨nameIndex, body⟩ := a
  rw [Attribute.encode]
  constructor
  · intro h
    obtain ⟨payload, hpayload, h⟩ := bind_eq_ok_iff.mp h
    obtain ⟨length, hlength, h⟩ := bind_eq_ok_iff.mp h
    obtain ⟨hle, rfl⟩ := encodeLength32_eq_ok_iff.mp hlength
    cases h
    exact ⟨payload, hpayload, hle, List.append_assoc ..⟩
  · rintro ⟨payload, hpayload, hle, rfl⟩
    refine bind_eq_ok_iff.mpr ⟨payload, hpayload, ?_⟩
    refine bind_eq_ok_iff.mpr ⟨_, encodeLength32_eq_ok_iff.mpr ⟨hle, rfl⟩, ?_⟩
    exact congrArg Except.ok (List.append_assoc ..)

/-- The bytes of a method body are those of its parts. -/
theorem Code.encode_eq_ok_iff {code : Code} {bytes : List UInt8} :
    code.encode = .ok bytes ↔
      ∃ handlers attributes, code.bytes.size ≤ 4294967295 ∧
        (table Handler.codec).encode code.handlers = .ok handlers ∧
        Attribute.encodeAll code.attributes = .ok attributes ∧
        bytes = bytesOfU16 code.maxStack ++ (bytesOfU16 code.maxLocals ++
          (bytesOfU32 (UInt32.ofNat code.bytes.size) ++
            (code.bytes.toList ++ (handlers ++ attributes)))) := by
  obtain ⟨maxStack, maxLocals, instructions, table, list⟩ := code
  rw [Code.encode]
  constructor
  · intro h
    obtain ⟨length, hlength, h⟩ := bind_eq_ok_iff.mp h
    obtain ⟨handlers, hhandlers, h⟩ := bind_eq_ok_iff.mp h
    obtain ⟨count, hcount, h⟩ := bind_eq_ok_iff.mp h
    obtain ⟨parts, hparts, h⟩ := bind_eq_ok_iff.mp h
    obtain ⟨hle, rfl⟩ := encodeLength32_eq_ok_iff.mp hlength
    cases h
    refine ⟨handlers, count ++ parts.flatten, hle, hhandlers, ?_, ?_⟩
    · exact bind_eq_ok_iff.mpr ⟨count, hcount, bind_eq_ok_iff.mpr ⟨parts, hparts, rfl⟩⟩
    · simp only [List.append_assoc]
  · rintro ⟨handlers, attributes, hle, hhandlers, hattributes, rfl⟩
    obtain ⟨count, hcount, h⟩ := bind_eq_ok_iff.mp hattributes
    obtain ⟨parts, hparts, h⟩ := bind_eq_ok_iff.mp h
    cases h
    refine bind_eq_ok_iff.mpr ⟨_, encodeLength32_eq_ok_iff.mpr ⟨hle, rfl⟩, ?_⟩
    refine bind_eq_ok_iff.mpr ⟨handlers, hhandlers, bind_eq_ok_iff.mpr ⟨count, hcount, ?_⟩⟩
    refine bind_eq_ok_iff.mpr ⟨parts, hparts, congrArg Except.ok ?_⟩
    simp only [List.append_assoc]

/-! ## Writing back -/

mutual

/-- An attribute is read back in a pool: its name leads to its kind, and its
payload is read back. -/
inductive Attribute.Readable (pool : ConstantPool) : Attribute → Prop
  /-- An attribute whose name leads to its kind. -/
  | intro {a : Attribute} {name : String} (hname : a.name pool = .ok name)
      (hkind : AttributeKind.ofName name = a.kind) (hbody : AttributeBody.Readable pool a.body) :
      Attribute.Readable pool a

/-- A payload is read back in a pool: the frames of its stack map fit their
forms, and the attributes inside it are read back. -/
inductive AttributeBody.Readable (pool : ConstantPool) : AttributeBody → Prop
  /-- A method body whose attributes are read back. -/
  | code {code : Code} (h : ∀ a ∈ code.attributes, Attribute.Readable pool a) :
      AttributeBody.Readable pool (.code code)
  /-- Any other payload, whose frames fit their forms. -/
  | data {payload : AttributeData} (h : payload.FitsForm) :
      AttributeBody.Readable pool (.data payload)

end

section Mono

variable {pool next : ConstantPool}

mutual

/-- What is read back in a pool is read back in another one that has the same
names at the same places. -/
theorem Attribute.Readable.mono {a : Attribute}
    (hnames : ∀ i name, pool.text i = .ok name → next.text i = .ok name) :
    a.Readable pool → a.Readable next
  | .intro hname hkind hbody =>
    .intro (hnames _ _ hname) hkind (AttributeBody.Readable.mono hnames hbody)

/-- A payload that is read back in a pool is read back in another one that has
the same names at the same places. -/
theorem AttributeBody.Readable.mono {body : AttributeBody}
    (hnames : ∀ i name, pool.text i = .ok name → next.text i = .ok name) :
    body.Readable pool → body.Readable next
  | .code hlist => .code fun a ha => Attribute.Readable.mono hnames (hlist a ha)
  | .data hfits => .data hfits

end

end Mono

/-- A reader of payloads gives payloads of the kind that it is asked for, which
are read back in a pool and written back. -/
def AttributeBody.Faithful (pool : ConstantPool)
    (decodeBody : AttributeKind → Decoder AttributeBody) : Prop :=
  ∀ ⦃kind bytes body rest⦄, decodeBody kind bytes = .ok (body, rest) →
    body.kind = kind ∧ body.Readable pool ∧
      ∃ written, body.encode = .ok written ∧ bytes = written ++ rest

section WriteBack

variable {pool : ConstantPool} {decodeBody : AttributeKind → Decoder AttributeBody}

/-- An attribute that is read has a name that leads to its kind, and a payload
that takes all of the declared length. -/
theorem Attribute.decodeWith_eq_ok {bytes rest : List UInt8} {a : Attribute}
    (h : Attribute.decodeWith pool decodeBody bytes = .ok (a, rest)) :
    ∃ name payload, ∃ length : UInt32, a.name pool = .ok name ∧ payload.length = length.toNat ∧
      bytes = bytesOfU16 a.nameIndex ++ (bytesOfU32 length ++ (payload ++ rest)) ∧
      decodeBody (AttributeKind.ofName name) payload = .ok (a.body, []) := by
  obtain ⟨nameIndex, middle, hindex, h⟩ := Decoder.bind_eq_ok_iff.mp h
  obtain ⟨length, behind, hlength, h⟩ := Decoder.bind_eq_ok_iff.mp h
  obtain ⟨payload, last, hpayload, h⟩ := Decoder.bind_eq_ok_iff.mp h
  obtain ⟨name, final, hlift, hbody⟩ := Decoder.bind_eq_ok_iff.mp h
  obtain ⟨hname, rfl⟩ := Decoder.lift_eq_ok_iff.mp hlift
  obtain ⟨start, hstart, rfl⟩ := exact_u16.writesBack bytes nameIndex middle hindex
  obtain ⟨count, hcount, rfl⟩ := exact_u32.writesBack middle length behind hlength
  obtain ⟨rfl, hsize⟩ := Decoder.take_eq_ok_iff.mp hpayload
  cases hstart
  cases hcount
  rcases hread : decodeBody (AttributeKind.ofName name) payload with e | ⟨body, after⟩
  · rw [hread] at hbody
    exact absurd hbody Decoder.throw_ne_ok
  · rw [hread] at hbody
    cases after with
    | nil =>
      cases hbody
      exact ⟨name, payload, length, hname, hsize, rfl, hread⟩
    | cons b after => exact absurd hbody Decoder.throw_ne_ok

/-- An attribute that is read is read back. -/
theorem AttributeBody.Faithful.readable_attribute (hbody : Faithful pool decodeBody)
    {bytes rest : List UInt8} {a : Attribute}
    (h : Attribute.decodeWith pool decodeBody bytes = .ok (a, rest)) : a.Readable pool := by
  obtain ⟨name, payload, length, hname, -, -, hread⟩ := Attribute.decodeWith_eq_ok h
  obtain ⟨hkind, hreadable, -⟩ := hbody hread
  exact .intro hname hkind.symm hreadable

/-- An attribute that is read is written back. -/
theorem AttributeBody.Faithful.writesBack_attribute (hbody : Faithful pool decodeBody) :
    (Attribute.codecWith pool decodeBody).WritesBack := by
  intro bytes a rest h
  obtain ⟨name, payload, length, -, hlength, rfl, hread⟩ := Attribute.decodeWith_eq_ok h
  obtain ⟨-, -, written, hwritten, hpayload⟩ := hbody hread
  rw [List.append_nil] at hpayload
  subst hpayload
  have hbound := length.toNat_lt
  refine ⟨bytesOfU16 a.nameIndex ++ (bytesOfU32 length ++ payload), ?_, ?_⟩
  · refine Attribute.encode_eq_ok_iff.mpr ⟨payload, hwritten, by omega, ?_⟩
    rw [hlength, UInt32.ofNat_toNat]
  · simp only [List.append_assoc]

/-- Attributes that are read are written back. -/
theorem AttributeBody.Faithful.writesBack_attributes (hbody : Faithful pool decodeBody)
    {bytes rest : List UInt8} {list : List Attribute}
    (h : Attribute.decodeAllWith pool decodeBody bytes = .ok (list, rest)) :
    ∃ written, Attribute.encodeAll list = .ok written ∧ bytes = written ++ rest := by
  rw [Attribute.encodeAll_eq (Attribute.decodeWith pool decodeBody)]
  exact writesBack_counted hbody.writesBack_attribute bytes list rest h

/-- Attributes that are read are read back. -/
theorem AttributeBody.Faithful.readable_attributes (hbody : Faithful pool decodeBody)
    {bytes rest : List UInt8} {list : List Attribute}
    (h : Attribute.decodeAllWith pool decodeBody bytes = .ok (list, rest)) :
    ∀ a ∈ list, a.Readable pool := by
  obtain ⟨count, middle, -, htimes⟩ := Decoder.bind_eq_ok_iff.mp h
  exact forall_mem_of_times (fun _ _ _ hread => hbody.readable_attribute hread)
    (fun a ha => by cases ha) htimes

/-- A method body that is read is written back, and so are its attributes read
back. -/
theorem AttributeBody.Faithful.encode_code (hbody : Faithful pool decodeBody)
    {bytes rest : List UInt8} {code : Code}
    (h : Code.decodeWith pool decodeBody bytes = .ok (code, rest)) :
    (∀ a ∈ code.attributes, a.Readable pool) ∧
      ∃ written, code.encode = .ok written ∧ bytes = written ++ rest := by
  obtain ⟨maxStack, bytes₁, hstack, h⟩ := Decoder.bind_eq_ok_iff.mp h
  obtain ⟨maxLocals, bytes₂, hlocals, h⟩ := Decoder.bind_eq_ok_iff.mp h
  obtain ⟨length, bytes₃, hlength, h⟩ := Decoder.bind_eq_ok_iff.mp h
  obtain ⟨instructions, bytes₄, htake, h⟩ := Decoder.bind_eq_ok_iff.mp h
  obtain ⟨handlers, bytes₅, hhandlers, h⟩ := Decoder.bind_eq_ok_iff.mp h
  obtain ⟨list, bytes₆, hlist, h⟩ := Decoder.bind_eq_ok_iff.mp h
  cases h
  obtain ⟨part₁, hpart₁, rfl⟩ := exact_u16.writesBack bytes maxStack bytes₁ hstack
  obtain ⟨part₂, hpart₂, rfl⟩ := exact_u16.writesBack bytes₁ maxLocals bytes₂ hlocals
  obtain ⟨part₃, hpart₃, rfl⟩ := exact_u32.writesBack bytes₂ length bytes₃ hlength
  obtain ⟨rfl, hsize⟩ := Decoder.take_eq_ok_iff.mp htake
  obtain ⟨part₅, hpart₅, rfl⟩ := Handler.exact.table.writesBack bytes₄ handlers bytes₅ hhandlers
  obtain ⟨part₆, hpart₆, rfl⟩ := hbody.writesBack_attributes hlist
  cases hpart₁
  cases hpart₂
  cases hpart₃
  have hbound := length.toNat_lt
  have harray : instructions.toArray.size = length.toNat := hsize
  refine ⟨hbody.readable_attributes hlist, _, Code.encode_eq_ok_iff.mpr
    ⟨part₅, part₆, by show instructions.toArray.size ≤ _; omega, hpart₅, hpart₆, rfl⟩, ?_⟩
  simp only [harray, UInt32.ofNat_toNat, List.append_assoc]

end WriteBack

/-- A payload that carries no attributes is written back, and read back if its
frames fit their forms, as those that are read do. -/
theorem AttributeBody.encode_of_decodeData {pool : ConstantPool} {kind : AttributeKind}
    (hkind : kind ≠ .code) {bytes rest : List UInt8} {body : AttributeBody}
    (h : (data <$> AttributeData.decode kind) bytes = .ok (body, rest)) :
    body.kind = kind ∧ body.Readable pool ∧
      ∃ written, body.encode = .ok written ∧ bytes = written ++ rest := by
  obtain ⟨payload, hpayload, rfl⟩ := Decoder.map_eq_ok_iff.mp h
  obtain ⟨hfound, hfits, written, hwritten, hbytes⟩ :=
    AttributeData.encode_of_decode hkind hpayload
  exact ⟨hfound, .data hfits, written, hwritten, hbytes⟩

/-- The payloads that carry no attributes are read at any depth. -/
theorem AttributeBody.decodeNested_of_ne {kind : AttributeKind} (hkind : kind ≠ .code)
    (pool : ConstantPool) (depth : Nat) :
    decodeNested pool depth kind = data <$> AttributeData.decode kind := by
  cases kind with
  | code => exact absurd rfl hkind
  | _ => cases depth <;> rfl

/-- Payloads in which bodies are nested to a bounded depth are read faithfully. -/
theorem AttributeBody.faithful_nested (pool : ConstantPool) (depth : Nat) :
    Faithful pool (decodeNested pool depth) := by
  induction depth with
  | zero =>
    intro kind bytes body rest h
    by_cases hkind : kind = .code
    · rw [hkind] at h
      exact absurd h Decoder.throw_ne_ok
    · exact encode_of_decodeData hkind (decodeNested_of_ne hkind pool 0 ▸ h)
  | succ depth ih =>
    intro kind bytes body rest h
    by_cases hkind : kind = .code
    · rw [hkind] at h ⊢
      obtain ⟨code, hcode, rfl⟩ := Decoder.map_eq_ok_iff.mp h
      obtain ⟨hattributes, hwritten⟩ := ih.encode_code hcode
      exact ⟨rfl, .code hattributes, hwritten⟩
    · exact encode_of_decodeData hkind (decodeNested_of_ne hkind pool (depth + 1) ▸ h)

/-- Payloads are read faithfully. -/
theorem AttributeBody.faithful (pool : ConstantPool) : Faithful pool (AttributeBody.decode pool) :=
  fun _ bytes _ _ h => faithful_nested pool (bytes.length + 1) h

/-- Attributes that are read are written back. -/
theorem Attribute.encodeAll_of_decodeAll {pool : ConstantPool} {bytes rest : List UInt8}
    {list : List Attribute} (h : Attribute.decodeAll pool bytes = .ok (list, rest)) :
    ∃ written, Attribute.encodeAll list = .ok written ∧ bytes = written ++ rest :=
  (AttributeBody.faithful pool).writesBack_attributes h

/-- Attributes that are read are read back. -/
theorem Attribute.readable_of_decodeAll {pool : ConstantPool} {bytes rest : List UInt8}
    {list : List Attribute} (h : Attribute.decodeAll pool bytes = .ok (list, rest)) :
    ∀ a ∈ list, a.Readable pool :=
  (AttributeBody.faithful pool).readable_attributes h

/-! ## Reading back -/

/-- The payload of an attribute of a method body is shorter than the body. -/
theorem Attribute.length_lt_of_mem {code : Code} {bytes payload : List UInt8}
    (h : code.encode = .ok bytes) {a : Attribute} (ha : a ∈ code.attributes)
    (hpayload : a.body.encode = .ok payload) : payload.length < bytes.length := by
  obtain ⟨handlers, attributes, -, -, hattributes, rfl⟩ := Code.encode_eq_ok_iff.mp h
  rw [Attribute.encodeAll_eq (throw .truncatedNumber)] at hattributes
  obtain ⟨entries, -, hentries, rfl⟩ := encode_counted_eq_ok_iff.mp hattributes
  obtain ⟨part, hpart, hle⟩ := length_le_of_mem hentries ha
  obtain ⟨found, hfound, -, rfl⟩ := Attribute.encode_eq_ok_iff.mp hpart
  cases hpayload.symm.trans hfound
  simp only [List.length_append, length_bytesOfU16, length_bytesOfU32] at hle ⊢
  omega

section ReadBack

variable {pool : ConstantPool} {decodeBody : AttributeKind → Decoder AttributeBody}

/-- An attribute whose payload is read back is read back, if its name leads to
its kind. -/
theorem Attribute.readsBack_with {a : Attribute} {name : String} (hname : a.name pool = .ok name)
    (hkind : AttributeKind.ofName name = a.kind)
    (hbody : ∀ payload, a.body.encode = .ok payload →
      decodeBody a.kind payload = .ok (a.body, [])) :
    (Attribute.codecWith pool decodeBody).ReadsBack a := by
  intro bytes hbytes rest
  obtain ⟨payload, hpayload, hle, rfl⟩ := Attribute.encode_eq_ok_iff.mp hbytes
  obtain ⟨n, hn, hlength⟩ := decode_length32 hle (payload ++ rest)
  have hindex := exact_u16.readsBack a.nameIndex _ rfl
    (bytesOfU32 (UInt32.ofNat payload.length) ++ (payload ++ rest))
  have htake : Decoder.take n.toNat (payload ++ rest) = .ok (payload, rest) :=
    Decoder.take_eq_ok_iff.mpr ⟨rfl, hn.symm⟩
  simp only [List.append_assoc]
  refine Decoder.bind_eq_ok_iff.mpr ⟨a.nameIndex, _, hindex, ?_⟩
  refine Decoder.bind_eq_ok_iff.mpr ⟨n, _, hlength, ?_⟩
  refine Decoder.bind_eq_ok_iff.mpr ⟨payload, rest, htake, ?_⟩
  refine Decoder.bind_eq_ok_iff.mpr ⟨name, rest, Decoder.lift_eq_ok_iff.mpr ⟨hname, rfl⟩, ?_⟩
  rw [hkind, hbody payload hpayload]
  cases a
  rfl

/-- Attributes whose payloads are read back are read back behind their count. -/
theorem Attribute.decodeAllWith_encodeAll {list : List Attribute}
    (hlist : ∀ a ∈ list, (Attribute.codecWith pool decodeBody).ReadsBack a) {bytes : List UInt8}
    (h : Attribute.encodeAll list = .ok bytes) (rest : List UInt8) :
    Attribute.decodeAllWith pool decodeBody (bytes ++ rest) = .ok (list, rest) := by
  rw [Attribute.encodeAll_eq (Attribute.decodeWith pool decodeBody)] at h
  exact readsBack_counted hlist bytes h rest

/-- A method body whose attributes are read back is read back. -/
theorem Code.decodeWith_encode {code : Code}
    (hlist : ∀ a ∈ code.attributes, (Attribute.codecWith pool decodeBody).ReadsBack a)
    {bytes : List UInt8} (h : code.encode = .ok bytes) :
    Code.decodeWith pool decodeBody bytes = .ok (code, []) := by
  obtain ⟨handlers, attributes, hle, hhandlers, hattributes, rfl⟩ := Code.encode_eq_ok_iff.mp h
  have hread := Attribute.decodeAllWith_encodeAll hlist hattributes []
  rw [List.append_nil] at hread
  obtain ⟨n, hn, hlength⟩ := decode_length32 hle (code.bytes.toList ++ (handlers ++ attributes))
  have htake : Decoder.take n.toNat (code.bytes.toList ++ (handlers ++ attributes)) =
      .ok (code.bytes.toList, handlers ++ attributes) :=
    Decoder.take_eq_ok_iff.mpr ⟨rfl, hn.symm⟩
  refine Decoder.bind_eq_ok_iff.mpr ⟨_, _, exact_u16.readsBack code.maxStack _ rfl _, ?_⟩
  refine Decoder.bind_eq_ok_iff.mpr ⟨_, _, exact_u16.readsBack code.maxLocals _ rfl _, ?_⟩
  refine Decoder.bind_eq_ok_iff.mpr ⟨n, _, hlength, ?_⟩
  refine Decoder.bind_eq_ok_iff.mpr ⟨_, _, htake, ?_⟩
  refine Decoder.bind_eq_ok_iff.mpr
    ⟨_, _, Handler.exact.table.readsBack code.handlers handlers hhandlers attributes, ?_⟩
  refine Decoder.bind_eq_ok_iff.mpr ⟨_, _, hread, ?_⟩
  cases code
  rfl

end ReadBack

/-- A payload that is shorter than the depth is read back if nothing follows it:
every body inside it is shorter still. -/
theorem AttributeBody.decodeNested_encode {pool : ConstantPool} {depth : Nat}
    {body : AttributeBody} (hbody : body.Readable pool) {bytes : List UInt8}
    (h : body.encode = .ok bytes) (hdepth : bytes.length < depth) :
    decodeNested pool depth body.kind bytes = .ok (body, []) := by
  induction depth generalizing body bytes with
  | zero => cases hdepth
  | succ depth ih =>
    cases hbody with
    | @data payload hfits =>
      have hkind : payload.kind ≠ .code := by cases payload <;> exact fun h => by cases h
      have hread := AttributeData.decode_encode hfits h
      show decodeNested pool (depth + 1) payload.kind bytes = _
      rw [decodeNested_of_ne hkind]
      exact Decoder.map_eq_ok_iff.mpr ⟨payload, hread, rfl⟩
    | @code code hlist =>
      refine Decoder.map_eq_ok_iff.mpr ⟨code, Code.decodeWith_encode (fun a ha => ?_) h, rfl⟩
      obtain ⟨hname, hkind, hinner⟩ := hlist a ha
      refine Attribute.readsBack_with hname hkind fun payload hpayload => ih hinner hpayload ?_
      have hlt := Attribute.length_lt_of_mem h ha hpayload
      omega

/-- A payload is read back if nothing follows it. -/
theorem AttributeBody.decode_encode {pool : ConstantPool} {body : AttributeBody}
    (hbody : body.Readable pool) {bytes : List UInt8} (h : body.encode = .ok bytes) :
    AttributeBody.decode pool body.kind bytes = .ok (body, []) :=
  decodeNested_encode hbody h (Nat.lt_succ_self _)

/-- Attributes are read back. -/
theorem Attribute.decodeAll_encodeAll {pool : ConstantPool} {list : List Attribute}
    (hlist : ∀ a ∈ list, a.Readable pool) {bytes : List UInt8}
    (h : Attribute.encodeAll list = .ok bytes) (rest : List UInt8) :
    Attribute.decodeAll pool (bytes ++ rest) = .ok (list, rest) := by
  refine Attribute.decodeAllWith_encodeAll (fun a ha => ?_) h rest
  obtain ⟨hname, hkind, hbody⟩ := hlist a ha
  exact Attribute.readsBack_with hname hkind fun payload hpayload =>
    AttributeBody.decode_encode hbody hpayload

/-- Attributes that are written are read back, with all that follows them left
over, exactly if the name of each of them leads to its kind and its frames fit
their forms, and so for all attributes inside it. -/
theorem Attribute.readsBack_iff {pool : ConstantPool} {list : List Attribute}
    {bytes : List UInt8} (h : Attribute.encodeAll list = .ok bytes) :
    (∀ tail, Attribute.decodeAll pool (bytes ++ tail) = .ok (list, tail)) ↔
      ∀ a ∈ list, a.Readable pool := by
  constructor
  · intro hread
    exact Attribute.readable_of_decodeAll (hread [])
  · exact fun hlist tail => Attribute.decodeAll_encodeAll hlist h tail

/-- The names of attributes, and one that no kind has. -/
def attributeNames : ConstantPool :=
  ((ConstantPool.decode 0 ([0, 4, 1, 0, 4, 67, 111, 100, 101, 1, 0, 1, 88, 1, 0, 13] ++
    [83, 116, 97, 99, 107, 77, 97, 112, 84, 97, 98, 108, 101])).toOption.map Prod.fst).getD
    (.empty 0)

/-- A body in a body, with a stack map and some bytes. -/
def nestedBodies : List Attribute :=
  let stackMap : Attribute := ⟨3, .data (.stackMap
    [.same 63, .chop 0 3, .append 2 [.object 5, .uninitialized 0], .oneOperandExtended 9 .null])⟩
  let inner : Code := ⟨1, 1, #[177], [⟨0, 1, 0, 0⟩], [stackMap, ⟨2, .data (.raw [1, 2, 3])⟩]⟩
  [⟨1, .code ⟨0, 0, #[], [], [⟨1, .code inner⟩]⟩⟩]

/-- The body in the body is read back. -/
theorem Attribute.readsBack_iff_nestedBodies :
    ∃ bytes, Attribute.encodeAll nestedBodies = .ok bytes ∧
      (∀ a ∈ nestedBodies, a.Readable attributeNames) ∧
      Attribute.decodeAll attributeNames (bytes ++ [0xCA, 0xFE]) =
        .ok (nestedBodies, [0xCA, 0xFE]) := by
  have hcode : attributeNames.text 1 = .ok "Code" := by decide +kernel
  have hother : attributeNames.text 2 = .ok "X" := by decide +kernel
  have hmap : attributeNames.text 3 = .ok "StackMapTable" := by decide +kernel
  have hreadable : ∀ a ∈ nestedBodies, a.Readable attributeNames := by
    refine List.forall_mem_singleton.mpr (.intro hcode rfl (.code ?_))
    refine List.forall_mem_singleton.mpr (.intro hcode rfl (.code ?_))
    refine List.forall_mem_cons.mpr ⟨.intro hmap rfl (.data ?_), ?_⟩
    · show ∀ frame ∈ _, StackFrame.FitsForm frame
      simp [StackFrame.FitsForm]
    · exact List.forall_mem_singleton.mpr (.intro hother rfl (.data trivial))
  obtain ⟨bytes, hbytes⟩ : ∃ bytes, Attribute.encodeAll nestedBodies = .ok bytes := ⟨_, rfl⟩
  exact ⟨bytes, hbytes, hreadable, (Attribute.readsBack_iff hbytes).mpr hreadable [0xCA, 0xFE]⟩

end JvmClass
