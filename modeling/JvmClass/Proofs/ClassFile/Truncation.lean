import JvmClass.Proofs.Binary.Truncation
import JvmClass.Proofs.ClassFile.Format

/-!
# Class files that end too early

A class file is read from a run of bytes alone. Cut short at any byte, in any
structure and at any depth, it is reported as ending too early; with other bytes
behind it, it is read as the same class and they are left over. Payloads of
attributes are taken as a whole before they are read, so that what is nested in
them never meets the end of the input.
-/

namespace JvmClass

open Codec Decoder

/-! ## Constants and pools -/

/-- What follows the tag of an entry is delimited. -/
theorem Constant.delimited_decodeBody (kind : ConstantKind) : Delimited (decodeBody kind) := by
  have hindices : Delimited indices.decode := delimited_pair delimited_u16 delimited_u16
  cases kind with
  | text => exact delimited_map delimited_text _
  | integer => exact delimited_map (delimited_map delimited_u32 _) _
  | float => exact delimited_map delimited_u32 _
  | long => exact delimited_map (delimited_map delimited_u64 _) _
  | double => exact delimited_map delimited_u64 _
  | symbol kind => exact delimited_map delimited_u16 _
  | member kind => exact delimited_map hindices _
  | nameAndType => exact delimited_map hindices _
  | methodHandle => exact delimited_map (delimited_pair delimited_u8 delimited_u16) _
  | dynamic kind => exact delimited_map hindices _

/-- Entries are delimited. -/
theorem Constant.delimited_decode : Delimited codec.decode := by
  refine delimited_bind delimited_u8 fun tag => ?_
  cases ConstantKind.ofTag? tag with
  | none => exact delimited_throw _
  | some kind => exact delimited_decodeBody kind

namespace ConstantPool

/-- Slots are filled by one entry after the other. -/
theorem decodeEntries_succ (count steps : Nat) (pool : ConstantPool) :
    decodeEntries count (steps + 1) pool =
      if count ≤ pool.size then pure pool
      else Constant.codec.decode >>= fun c =>
        if c.isWide ∧ count ≤ pool.size + 1 then throw (.malformed (.wideEntry pool.size count))
        else decodeEntries count steps (pool.push c) := by
  funext bytes
  simp only [decodeEntries]
  by_cases hfull : count ≤ pool.size
  · rw [if_pos hfull, if_pos hfull]
    rfl
  · rw [if_neg hfull, if_neg hfull]
    cases h : Constant.codec.decode bytes with
    | error e => exact (bind_of_error h _).symm
    | ok read =>
      rw [bind_of_ok h]
      simp only
      split <;> rfl

/-- Filling the slots of a pool is delimited. -/
theorem delimited_decodeEntries (count steps : Nat) (pool : ConstantPool) :
    Delimited (decodeEntries count steps pool) := by
  induction steps generalizing pool with
  | zero => exact delimited_pure pool
  | succ steps ih =>
    rw [decodeEntries_succ]
    split
    · exact delimited_pure pool
    · refine delimited_bind Constant.delimited_decode fun c => ?_
      split
      · exact delimited_throw _
      · exact ih (pool.push c)

/-- Pools are delimited. -/
theorem delimited_decode (id : Nat) : Delimited (decode id) := by
  refine delimited_bind delimited_u16 fun count => ?_
  split
  · exact delimited_throw _
  · exact delimited_decodeEntries _ _ _

/-- The identity of a pool does not matter to the entries that fill it. -/
theorem decodeEntries_withId (other count steps : Nat) (pool : ConstantPool) :
    decodeEntries count steps (pool.withId other) =
      (withId · other) <$> decodeEntries count steps pool := by
  induction steps generalizing pool with
  | zero => rfl
  | succ steps ih =>
    have hpush : ∀ c, (pool.withId other).push c = (pool.push c).withId other := fun _ => rfl
    have hsize : (pool.withId other).size = pool.size := rfl
    simp only [decodeEntries_succ, hpush, hsize, ih]
    split
    · rfl
    · rw [map_bind]
      congr 1
      funext c
      split <;> rfl

/-- The identity of a pool does not matter to how it is read. -/
theorem decode_withId (id other : Nat) : decode other = (withId · other) <$> decode id := by
  have hempty : empty other = (empty id).withId other := rfl
  unfold decode
  simp only [hempty, decodeEntries_withId, map_bind]
  congr 1
  funext count
  split <;> rfl

end ConstantPool

/-! ## Attributes and members -/

/-- Attributes are delimited, whatever reads their payloads. -/
theorem Attribute.delimited_decodeWith (pool : ConstantPool)
    (decodeBody : AttributeKind → Decoder AttributeBody) :
    Delimited (decodeWith pool decodeBody) := by
  refine delimited_bind delimited_u16 fun nameIndex => ?_
  refine delimited_bind delimited_u32 fun length => ?_
  refine delimited_bind (delimited_take _) fun payload => ?_
  refine delimited_bind (delimited_lift _) fun name => ?_
  -- The payload was taken as a whole: nothing more is read.
  split
  · exact delimited_pure _
  · exact delimited_throw _
  · exact delimited_throw _

/-- Lists of attributes are delimited. -/
theorem Attribute.delimited_decodeAll (pool : ConstantPool) : Delimited (decodeAll pool) :=
  delimited_bind delimited_u16 fun _ => delimited_times (delimited_decodeWith pool _) [] _

/-- Members are delimited. -/
theorem delimited_decodeMember {α : Type}
    (make : AccessFlags → UInt16 → UInt16 → List Attribute → α) (pool : ConstantPool) :
    Delimited (decodeMember make pool) := by
  refine delimited_bind (delimited_map delimited_u16 _) fun flags => ?_
  refine delimited_bind delimited_u16 fun nameIndex => ?_
  refine delimited_bind delimited_u16 fun descriptorIndex => ?_
  exact delimited_bind (Attribute.delimited_decodeAll pool) fun _ => delimited_pure _

/-- Fields are delimited. -/
theorem Field.delimited_decode (pool : ConstantPool) : Delimited (decode pool) :=
  delimited_decodeMember Field.mk pool

/-- Methods are delimited. -/
theorem Method.delimited_decode (pool : ConstantPool) : Delimited (decode pool) :=
  delimited_decodeMember (fun flags n d list => Method.mk flags n d (some list)) pool

/-- Payloads are read alike in pools that differ in nothing but their identity. -/
theorem AttributeBody.decodeNested_withId (pool : ConstantPool) (other depth : Nat) :
    decodeNested (pool.withId other) depth = decodeNested pool depth := by
  induction depth with
  | zero =>
    funext kind
    cases kind <;> rfl
  | succ depth ih =>
    funext kind
    cases kind with
    | code =>
      show AttributeBody.code <$> Code.decodeWith (pool.withId other) _ = _
      rw [ih]
      rfl
    | _ => rfl

/-- Attributes are read alike in pools that differ in nothing but their
identity. -/
theorem Attribute.decodeAll_withId (pool : ConstantPool) (other : Nat) :
    decodeAll (pool.withId other) = decodeAll pool := by
  have hbody : AttributeBody.decode (pool.withId other) = AttributeBody.decode pool := by
    funext kind bytes
    unfold AttributeBody.decode
    rw [AttributeBody.decodeNested_withId]
  unfold decodeAll
  rw [hbody]
  rfl

/-- Members are read alike in pools that differ in nothing but their identity. -/
theorem decodeMember_withId {α : Type}
    (make : AccessFlags → UInt16 → UInt16 → List Attribute → α) (pool : ConstantPool)
    (other : Nat) : decodeMember make (pool.withId other) = decodeMember make pool := by
  unfold decodeMember
  rw [Attribute.decodeAll_withId]

/-! ## Class files -/

namespace ClassFile

/-- Class files are delimited. -/
theorem delimited_decode (id : Nat) : Delimited (decode id) := by
  refine delimited_bind delimited_u32 fun found => ?_
  split
  · exact delimited_throw _
  refine delimited_bind delimited_u16 fun minorVersion => ?_
  refine delimited_bind delimited_u16 fun majorVersion => ?_
  refine delimited_bind (ConstantPool.delimited_decode id) fun pool => ?_
  refine delimited_bind (delimited_map delimited_u16 _) fun flags => ?_
  refine delimited_bind delimited_u16 fun thisClass => ?_
  refine delimited_bind delimited_u16 fun superClass => ?_
  refine delimited_bind (delimited_counted delimited_u16) fun interfaces => ?_
  refine delimited_bind delimited_u16 fun fieldCount => ?_
  refine delimited_bind (delimited_times (Field.delimited_decode _) [] _) fun fields => ?_
  refine delimited_bind delimited_u16 fun methodCount => ?_
  refine delimited_bind (delimited_times (Method.delimited_decode _) [] _) fun methods => ?_
  exact delimited_bind (Attribute.delimited_decodeAll _) fun attributes => delimited_pure _

/-- The identity of its pool does not matter to how a class file is read. -/
theorem decode_withPoolId (id other : Nat) :
    decode other = (withPoolId · other) <$> decode id := by
  unfold decode
  rw [ConstantPool.decode_withId id other]
  simp only [map_bind]
  congr 1
  funext found
  split
  · rfl
  have hpool (pool : ConstantPool) (thisClass : UInt16) :
      ({ pool.withId other with thisClass } : ConstantPool) =
        ({ pool with thisClass } : ConstantPool).withId other := rfl
  have hfield (pool : ConstantPool) : Field.decode (pool.withId other) = Field.decode pool :=
    decodeMember_withId Field.mk pool other
  have hmethod (pool : ConstantPool) : Method.decode (pool.withId other) = Method.decode pool :=
    decodeMember_withId (fun flags n d list => Method.mk flags n d (some list)) pool other
  simp only [bind_map_left, map_bind, map_pure, hpool, hfield, hmethod, Attribute.decodeAll_withId]
  rfl

/-- A class file that takes all bytes is read from them alone: cut short anywhere
it is reported as ending too early, and with bytes behind it the same class is
read and they are left over. -/
theorem decode_cut_and_extended {id : Nat} {bytes : List UInt8} {c : ClassFile}
    (h : decode id bytes = .ok (c, [])) (other : Nat) :
    (∀ front, front <+: bytes → front ≠ bytes →
      ∃ e, decode other front = .error e ∧ e.IsTruncation) ∧
      ∀ tail, decode other (bytes ++ tail) = .ok (c.withPoolId other, tail) := by
  have hother : decode other bytes = .ok (c.withPoolId other, []) := by
    rw [decode_withPoolId id other]
    exact map_eq_ok_iff.mpr ⟨c, h, rfl⟩
  obtain ⟨run, hrun, hreads⟩ := delimited_decode other bytes _ [] hother
  rw [List.append_nil] at hrun
  subst hrun
  exact ⟨hreads.stops, hreads.leaves⟩

/-- The class file is cut short in the body in its body, and followed by the
first bytes of another one. -/
theorem decode_cut_and_extended_nestedBytes :
    ∃ c, decode 0 nestedBytes = .ok (c, []) ∧
      (nestedBytes.take 110 <+: nestedBytes ∧ nestedBytes.take 110 ≠ nestedBytes ∧
        ∃ e, decode 1 (nestedBytes.take 110) = .error e ∧ e.IsTruncation) ∧
      decode 1 (nestedBytes ++ [0xCA, 0xFE]) = .ok (c.withPoolId 1, [0xCA, 0xFE]) := by
  obtain ⟨c, hc⟩ : ∃ c, decode 0 nestedBytes = .ok (c, []) := ⟨_, rfl⟩
  have hfront : nestedBytes.take 110 <+: nestedBytes := List.take_prefix 110 nestedBytes
  have hne : nestedBytes.take 110 ≠ nestedBytes := by decide
  obtain ⟨hcut, hextended⟩ := decode_cut_and_extended hc 1
  exact ⟨c, hc, ⟨hfront, hne, hcut _ hfront hne⟩, hextended [0xCA, 0xFE]⟩

end ClassFile

end JvmClass
