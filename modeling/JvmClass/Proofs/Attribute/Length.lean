import JvmClass.Proofs.Attribute.Format
import JvmClass.Proofs.Binary.Length

/-!
# Lengths of attributes

The length of an attribute is computed from its contents, with a formula for
every kind of payload and every form of a frame, and is never read off the bytes.
It is the length of the bytes all the same. What is written is framed: in front
of the payload of each attribute, at whatever depth, stands the number of bytes
that the payload takes.
-/

namespace JvmClass

open Codec

/-! ## Entries of tables -/

/-- A handler takes eight bytes. -/
theorem Handler.sized : Handler.codec.Sized fun _ => 8 :=
  ((sized_u16.pair sized_u16).pair (sized_u16.pair sized_u16)).convert _ _

/-- A line number takes four bytes. -/
theorem LineNumber.sized : LineNumber.codec.Sized fun _ => 4 :=
  (sized_u16.pair sized_u16).convert _ _

/-- A local variable takes ten bytes. -/
theorem LocalVariable.sized : LocalVariable.codec.Sized fun _ => 10 :=
  ((sized_u16.pair sized_u16).pair (sized_u16.pair (sized_u16.pair sized_u16))).convert _ _

/-- An inner class takes eight bytes. -/
theorem InnerClass.sized : InnerClass.codec.Sized fun _ => 8 :=
  ((sized_u16.pair sized_u16).pair (sized_u16.pair sized_u16)).convert _ _

/-- A bootstrap method takes as many bytes as its length says. -/
theorem BootstrapMethod.sized : BootstrapMethod.codec.Sized BootstrapMethod.length := by
  intro m bytes h
  have hparts := ((sized_u16.pair sized_u16.table_const).convert _ _) m bytes h
  rw [hparts]
  show 2 + (2 + 2 * m.arguments.length) = 4 + 2 * m.arguments.length
  omega

/-! ## Frames -/

/-- A verification type takes as many bytes as its length says. -/
theorem VerificationType.sized : VerificationType.codec.Sized VerificationType.length := by
  intro type bytes h
  cases type <;> (cases h; rfl)

namespace StackFrame

/-- A frame takes as many bytes as its length says, whatever its form. -/
theorem sized : StackFrame.codec.Sized StackFrame.length := by
  intro frame bytes h
  cases frame with
  | same | chop | sameExtended =>
    cases h
    rfl
  | oneOperand delta operand =>
    obtain ⟨type, htype, h⟩ := bind_eq_ok_iff.mp h
    cases h
    rw [List.length_cons, VerificationType.sized operand type htype, length, Nat.add_comm]
  | oneOperandExtended delta operand =>
    obtain ⟨type, htype, h⟩ := bind_eq_ok_iff.mp h
    cases h
    rw [List.length_append, VerificationType.sized operand type htype]
    rfl
  | append delta locals =>
    obtain ⟨types, htypes, h⟩ := bind_eq_ok_iff.mp h
    cases h
    rw [List.length_append, VerificationType.sized.length_encodeAll htypes]
    rfl
  | full delta locals operands =>
    obtain ⟨first, hfirst, h⟩ := bind_eq_ok_iff.mp h
    obtain ⟨second, hsecond, h⟩ := bind_eq_ok_iff.mp h
    cases h
    have hlocals := VerificationType.sized.table locals first hfirst
    have hoperands := VerificationType.sized.table operands second hsecond
    rw [List.length_append, List.length_append, hlocals, hoperands, length]
    show 3 + (2 + VerificationType.totalLength locals) +
      (2 + VerificationType.totalLength operands) = _
    omega

end StackFrame

/-! ## Payloads -/

/-- A payload without attributes of its own takes as many bytes as its length
says. -/
theorem AttributeData.length_encode {payload : AttributeData} {bytes : List UInt8}
    (h : payload.encode = .ok bytes) : bytes.length = payload.length := by
  cases payload with
  | exceptions classes => exact sized_u16.table_const classes bytes h
  | constantValue i => exact sized_u16 i bytes h
  | sourceFile i => exact sized_u16 i bytes h
  | lineNumbers table => exact LineNumber.sized.table_const table bytes h
  | localVariables table => exact LocalVariable.sized.table_const table bytes h
  | localVariableTypes table => exact LocalVariable.sized.table_const table bytes h
  | stackMap frames => exact StackFrame.sized.table frames bytes h
  | synthetic =>
    cases h
    rfl
  | innerClasses table => exact InnerClass.sized.table_const table bytes h
  | bootstrapMethods table => exact BootstrapMethod.sized.table table bytes h
  | raw found =>
    cases h
    rfl

/-! ## Frames of attributes -/

mutual

/-- Bytes are framed as an attribute: the index of its name, four bytes that
give the number of bytes behind them, and these are framed as its payload. -/
inductive Attribute.Framed : Attribute → List UInt8 → Prop
  /-- The declared length is the length of the payload. -/
  | intro {a : Attribute} {b₀ b₁ b₂ b₃ : UInt8} {payload : List UInt8}
      (hdeclared : (u32OfBytes b₀ b₁ b₂ b₃).toNat = payload.length)
      (hbody : AttributeBody.Framed a.body payload) :
      Attribute.Framed a (bytesOfU16 a.nameIndex ++ [b₀, b₁, b₂, b₃] ++ payload)

/-- Bytes are framed as a payload: the attributes of a method body stand behind
its limits, its instructions, its exception table and three counts. -/
inductive AttributeBody.Framed : AttributeBody → List UInt8 → Prop
  /-- The payload is a method body. -/
  | code {code : Code} {front behind : List UInt8}
      (hfront : front.length = 12 + code.bytes.size + 8 * code.handlers.length)
      (hbehind : Attribute.FramedInRow code.attributes behind) :
      AttributeBody.Framed (.code code) (front ++ behind)
  /-- The payload carries no attributes. -/
  | data {payload : AttributeData} {bytes : List UInt8} (hlength : bytes.length = payload.length) :
      AttributeBody.Framed (.data payload) bytes

/-- Bytes are framed as several attributes, one behind the other. -/
inductive Attribute.FramedInRow : List Attribute → List UInt8 → Prop
  /-- There is no attribute. -/
  | nil : Attribute.FramedInRow [] []
  /-- There is a first attribute, and others behind it. -/
  | cons {a : Attribute} {list : List Attribute} {start stop : List UInt8}
      (hfirst : Attribute.Framed a start) (hrest : Attribute.FramedInRow list stop) :
      Attribute.FramedInRow (a :: list) (start ++ stop)

end

/-! ## Computed lengths -/

/-- The length of several attributes is added to a number. -/
theorem Attribute.lengthFrom_eq (n : Nat) (list : List Attribute) :
    lengthFrom n list = n + totalLength list := by
  induction list generalizing n with
  | nil => rfl
  | cons a list ih =>
    unfold totalLength
    rw [lengthFrom, lengthFrom, ih, ih (0 + a.length), Nat.zero_add, Nat.add_assoc]

/-- The length of several attributes is that of the first and that of the
others. -/
theorem Attribute.totalLength_cons (a : Attribute) (list : List Attribute) :
    totalLength (a :: list) = a.length + totalLength list := by
  unfold totalLength
  rw [lengthFrom, lengthFrom_eq, Nat.zero_add]
  rfl

/-- The length of a body is that of its parts. -/
theorem Code.length_eq (code : Code) :
    code.length =
      12 + code.bytes.size + 8 * code.handlers.length + Attribute.totalLength code.attributes := by
  obtain ⟨maxStack, maxLocals, instructions, table, list⟩ := code
  rw [Code.length, Attribute.lengthFrom_eq]

mutual

/-- Bytes that are framed as an attribute are as many as its length says. -/
theorem Attribute.Framed.length_eq {a : Attribute} {bytes : List UInt8} :
    a.Framed bytes → bytes.length = a.length
  | .intro _ hbody => by
    have hpayload := AttributeBody.Framed.length_eq hbody
    rw [List.length_append, hpayload]
    cases a
    rw [Attribute.length]
    rfl

/-- Bytes that are framed as a payload are as many as its length says. -/
theorem AttributeBody.Framed.length_eq {body : AttributeBody} {bytes : List UInt8} :
    body.Framed bytes → bytes.length = body.length
  | @AttributeBody.Framed.code code _ _ hfront hbehind => by
    have hattributes := Attribute.FramedInRow.length_eq hbehind
    rw [List.length_append, hfront, hattributes, AttributeBody.length, Code.length_eq]
  | .data hlength => by rw [hlength, AttributeBody.length]

/-- Bytes that are framed as several attributes are as many as these take. -/
theorem Attribute.FramedInRow.length_eq {list : List Attribute} {bytes : List UInt8} :
    Attribute.FramedInRow list bytes → bytes.length = Attribute.totalLength list
  | .nil => rfl
  | .cons hfirst hrest => by
    have hstart := Attribute.Framed.length_eq hfirst
    have hstop := Attribute.FramedInRow.length_eq hrest
    rw [List.length_append, hstart, hstop, Attribute.totalLength_cons]

end

/-! ## Written attributes -/

mutual

/-- What is written of an attribute is framed. -/
theorem Attribute.framed_of_encode : (a : Attribute) → ∀ {bytes : List UInt8},
    a.encode = .ok bytes → a.Framed bytes
  | ⟨nameIndex, body⟩, bytes, h => by
    obtain ⟨payload, hpayload, hle, rfl⟩ := Attribute.encode_eq_ok_iff.mp h
    obtain ⟨b₀, b₁, b₂, b₃, hbytes, hnumber⟩ := exists_bytesOfU32 (UInt32.ofNat payload.length)
    have hdeclared : (u32OfBytes b₀ b₁ b₂ b₃).toNat = payload.length := by
      rw [hnumber, UInt32.toNat_ofNat']
      omega
    rw [hbytes, ← List.append_assoc]
    exact .intro hdeclared (AttributeBody.framed_of_encode body hpayload)

/-- What is written of a payload is framed. -/
theorem AttributeBody.framed_of_encode : (body : AttributeBody) → ∀ {bytes : List UInt8},
    body.encode = .ok bytes → body.Framed bytes
  | .code code, _, h => Code.framed_of_encode code h
  | .data _, _, h => .data (AttributeData.length_encode h)

/-- What is written of a method body is framed. -/
theorem Code.framed_of_encode : (code : Code) → ∀ {bytes : List UInt8},
    code.encode = .ok bytes → (AttributeBody.code code).Framed bytes
  | ⟨maxStack, maxLocals, instructions, table, list⟩, _, h => by
    obtain ⟨handlers, attributes, -, hhandlers, hattributes, rfl⟩ := Code.encode_eq_ok_iff.mp h
    rw [Attribute.encodeAll_eq (throw .truncatedNumber)] at hattributes
    obtain ⟨entries, -, hentries, rfl⟩ := encode_counted_eq_ok_iff.mp hattributes
    have hframed := Attribute.framedInRow_of_encode list hentries
    have htable := Handler.sized.table_const table handlers hhandlers
    simp only [← List.append_assoc]
    refine .code ?_ hframed
    simp only [List.length_append, length_bytesOfU16, length_bytesOfU32, Array.length_toList,
      htable]
    omega

/-- What is written of several attributes in a row is framed. -/
theorem Attribute.framedInRow_of_encode : (list : List Attribute) → ∀ {bytes : List UInt8},
    Codec.encodeAll Attribute.encode list = .ok bytes → Attribute.FramedInRow list bytes
  | [], bytes, h => by
    cases h
    exact .nil
  | a :: list, bytes, h => by
    obtain ⟨start, stop, hstart, hstop, rfl⟩ := encodeAll_cons_eq_ok_iff.mp h
    exact .cons (Attribute.framed_of_encode a hstart) (Attribute.framedInRow_of_encode list hstop)

end

/-- The computed length of an attribute is the number of bytes that are written
of it, and the bytes are framed: the length that is declared in its header, and
in the header of every attribute inside it, is the number of bytes behind that
header which belong to it. Several attributes take two bytes more than their
computed lengths, for their count. -/
theorem Attribute.length_of_encode :
    (∀ (a : Attribute) (bytes : List UInt8), a.encode = .ok bytes →
      bytes.length = a.length ∧ a.Framed bytes) ∧
    ∀ (list : List Attribute) (bytes : List UInt8), Attribute.encodeAll list = .ok bytes →
      bytes.length = 2 + totalLength list ∧
        ∃ entries, bytes = bytesOfU16 (UInt16.ofNat list.length) ++ entries ∧
          FramedInRow list entries := by
  constructor
  · intro a bytes h
    have hframed := Attribute.framed_of_encode a h
    exact ⟨hframed.length_eq, hframed⟩
  · intro list bytes h
    rw [Attribute.encodeAll_eq (throw .truncatedNumber)] at h
    obtain ⟨entries, -, hentries, rfl⟩ := encode_counted_eq_ok_iff.mp h
    have hframed := Attribute.framedInRow_of_encode list hentries
    rw [List.length_append, length_bytesOfU16, hframed.length_eq]
    exact ⟨rfl, entries, rfl, hframed⟩

/-- A body in a body takes the bytes that are computed for it, and so does a stack
map of two frames. -/
theorem Attribute.length_of_encode_nestedBodies :
    (∃ bytes, Attribute.encodeAll nestedBodies = .ok bytes ∧ bytes.length = 81 ∧
      ∃ entries, bytes = [0, 1] ++ entries ∧ FramedInRow nestedBodies entries) ∧
    ∃ bytes, Attribute.encode ⟨3, .data (.stackMap [.same 63, .append 2 [.object 5]])⟩ = .ok bytes ∧
      bytes.length = 15 := by
  obtain ⟨bytes, hbytes⟩ : ∃ bytes, Attribute.encodeAll nestedBodies = .ok bytes := ⟨_, rfl⟩
  obtain ⟨hlength, hframed⟩ := Attribute.length_of_encode.2 nestedBodies bytes hbytes
  have htotal : totalLength nestedBodies = 79 := rfl
  obtain ⟨frames, hframes⟩ : ∃ bytes,
      Attribute.encode ⟨3, .data (.stackMap [.same 63, .append 2 [.object 5]])⟩ = .ok bytes :=
    ⟨_, rfl⟩
  exact ⟨⟨bytes, hbytes, by rw [hlength, htotal], hframed⟩,
    frames, hframes, (Attribute.length_of_encode.1 _ frames hframes).1⟩

end JvmClass
