import JvmClass.Proofs.Attribute.Format
import JvmClass.Proofs.Code.Cursor
import JvmClass.Proofs.Code.GapInsertion
import JvmClass.Proofs.Code.GapTables

/-!
# Edited bodies are read back

What is done to a body leaves each of its attributes under its name and keeps
its kind, and a frame whose distance grows out of its form takes a form that
holds it. So the attributes of a body are read back after an edit if they were
before.
-/

namespace JvmClass

/-! ## Shifted frames -/

namespace StackFrame

/-- A frame at another distance fits its form. -/
theorem fitsForm_withDelta (delta : UInt16) {frame : StackFrame} (h : frame.FitsForm) :
    (frame.withDelta delta).FitsForm := by
  cases frame with
  | same old =>
    show (if delta ≤ 63 then same delta else sameExtended delta).FitsForm
    split
    · next hle => exact UInt16.le_iff_toNat_le.mp hle
    · exact trivial
  | oneOperand old operand =>
    show (if delta ≤ 63 then oneOperand delta operand else
      oneOperandExtended delta operand).FitsForm
    split
    · next hle => exact UInt16.le_iff_toNat_le.mp hle
    · exact trivial
  | _ => exact h

/-- A frame with other types fits its form. -/
theorem fitsForm_mapTypes (f : VerificationType → VerificationType) {frame : StackFrame}
    (h : frame.FitsForm) : (frame.mapTypes f).FitsForm := by
  cases frame with
  | append delta locals =>
    show 1 ≤ (locals.map f).length ∧ (locals.map f).length ≤ 3
    rw [List.length_map]
    exact h
  | _ => exact h

end StackFrame

/-- The frames of a stack map fit their forms after bytes are inserted. -/
theorem StackMap.fitsForm_shift (s : Shift) {frames : StackMap}
    (h : ∀ frame ∈ frames, frame.FitsForm) : ∀ frame ∈ shift s frames, frame.FitsForm := by
  have hfrom : ∀ old new, ∀ frame ∈ shiftFrom s old new frames, frame.FitsForm := by
    induction frames with
    | nil => exact fun _ _ _ hframe => by cases hframe
    | cons first frames ih =>
      intro old new frame hframe
      rcases List.mem_cons.mp hframe with rfl | hlater
      · have hfirst := h first List.mem_cons_self
        exact StackFrame.fitsForm_mapTypes _ (StackFrame.fitsForm_withDelta _ hfirst)
      · exact ih (fun frame hframe => h frame (List.mem_cons_of_mem _ hframe)) _ _ frame hlater
  rw [shift_eq]
  exact hfrom none none

/-! ## Shifted attributes -/

namespace AttributeData

/-- A payload keeps its kind when bytes are inserted into the body. -/
@[simp]
theorem kind_shift (s : Shift) (payload : AttributeData) :
    (payload.shift s).kind = payload.kind := by
  cases payload <;> rfl

/-- The frames of a payload fit their forms after bytes are inserted. -/
theorem fitsForm_shift (s : Shift) {payload : AttributeData} (h : payload.FitsForm) :
    (payload.shift s).FitsForm := by
  cases payload with
  | stackMap frames => exact StackMap.fitsForm_shift s h
  | _ => exact trivial

end AttributeData

/-- An attribute is read back after bytes are inserted into the body. -/
theorem Attribute.Readable.shift {pool : ConstantPool} {a : Attribute} (h : a.Readable pool)
    (s : Shift) : (a.shift s).Readable pool := by
  obtain ⟨nameIndex, body⟩ := a
  cases body with
  | code code => exact h
  | data payload =>
    obtain ⟨hname, hkind, hbody⟩ := h
    cases hbody with
    | data hfits =>
      refine .intro hname ?_ (.data (payload.fitsForm_shift s hfits))
      exact hkind.trans (payload.kind_shift s).symm

/-! ## Edits of a body -/

namespace Code

/-- The attributes of a body are read back, wherever those of another body are. -/
def KeepsReadable (old new : Code) : Prop :=
  ∀ pool, (∀ a ∈ old.attributes, a.Readable pool) → ∀ a ∈ new.attributes, a.Readable pool

namespace KeepsReadable

variable {old between new : Code}

/-- A body that keeps its attributes. -/
theorem of_eq (h : new.attributes = old.attributes) : KeepsReadable old new := by
  intro pool hold
  rw [h]
  exact hold

/-- A body that is not changed. -/
theorem refl (code : Code) : KeepsReadable code code := .of_eq rfl

/-- Two edits in a row. -/
theorem trans (first : KeepsReadable old between) (second : KeepsReadable between new) :
    KeepsReadable old new := fun pool hold => second pool (first pool hold)

end KeepsReadable

section Edits

variable {code next : Code}

/-- Replacing bytes keeps the attributes. -/
theorem keepsReadable_write {position : Nat} {bytes : List UInt8}
    (h : code.write position bytes = .ok next) : KeepsReadable code next := by
  obtain ⟨-, rfl⟩ := write_eq_ok_iff.mp h
  exact .of_eq rfl

/-- Making room shifts the attributes. -/
theorem keepsReadable_makeRoom {s : Shift} (h : code.makeRoom s = .ok next) :
    KeepsReadable code next := by
  obtain ⟨bytes, -, h⟩ := bind_eq_ok_iff.mp h
  cases h
  intro pool hold a ha
  obtain ⟨b, hb, rfl⟩ := List.mem_map.mp ha
  exact (hold b hb).shift s

/-- Inserting a gap shifts the attributes, if it changes anything. -/
theorem keepsReadable_insertGap {s : Shift} {position length : Nat} {exclusive : Bool}
    (h : code.insertGap position length exclusive = .ok (s, next)) : KeepsReadable code next := by
  rcases (insertGap_cases h).2 with ⟨-, rfl⟩ | ⟨-, -, hmade⟩
  · exact .refl next
  · exact keepsReadable_makeRoom hmade

/-- Inserting bytes makes a gap and fills it. -/
theorem keepsReadable_insertBytes {s : Shift} {position : Nat} {bytes : List UInt8}
    (h : code.insertBytes position bytes = .ok (s, next)) : KeepsReadable code next := by
  obtain ⟨⟨found, moved⟩, hgap, h⟩ := bind_eq_ok_iff.mp h
  obtain ⟨filled, hwrite, h⟩ := bind_eq_ok_iff.mp h
  cases h
  exact (keepsReadable_insertGap hgap).trans (keepsReadable_write hwrite)

/-- Adding handlers keeps the attributes. -/
theorem keepsReadable_insertHandlers {handlers : List Handler} {offset : Nat}
    (h : code.insertHandlers handlers offset = .ok next) : KeepsReadable code next := by
  obtain ⟨moved, -, h⟩ := bind_eq_ok_iff.mp h
  cases h
  exact .of_eq rfl

end Edits

end Code

/-! ## Edits through a cursor -/

namespace Cursor

/-- A request to change a body through a cursor. -/
inductive Request where
  /-- Replace bytes at a position. -/
  | write (position : Nat) (bytes : List UInt8)
  /-- Replace the byte at a position. -/
  | writeByte (position : Nat) (value : UInt8)
  /-- Replace the two bytes at a position. -/
  | writeU16 (position : Nat) (value : UInt16)
  /-- Replace the four bytes at a position. -/
  | writeI32 (position : Nat) (value : Int32)
  /-- Insert a gap before the instruction at a position. -/
  | insertGap (position length : Nat) (exclusive : Bool)
  /-- Insert bytes before the instruction at a position. -/
  | insertBytes (position : Nat) (bytes : List UInt8)
  /-- Put handlers in front of the exception table, moved by an offset. -/
  | insertHandlers (handlers : List Handler) (offset : Nat)

/-- What a request does. -/
def Request.edit : Request → Edit Cursor Unit
  | .write position bytes => Cursor.write position bytes
  | .writeByte position value => Cursor.writeByte position value
  | .writeU16 position value => Cursor.writeU16 position value
  | .writeI32 position value => Cursor.writeI32 position value
  | .insertGap position length exclusive => do
    let _ ← Cursor.insertGap position length exclusive
  | .insertBytes position bytes => do
    let _ ← Cursor.insertBytes position bytes
  | .insertHandlers handlers offset => Cursor.insertHandlers handlers offset

/-- A change of the body that keeps its attributes readable does so through a
cursor, be it with success or not. -/
theorem keepsReadable_onCode {f : Code → Except Error Code} (cursor : Cursor)
    (hf : ∀ next, f cursor.code = .ok next → cursor.code.KeepsReadable next) :
    cursor.code.KeepsReadable ((onCode f).runOn cursor).2.code := by
  rw [runOn_onCode]
  cases hnext : f cursor.code with
  | error e => exact .refl cursor.code
  | ok next => exact hf next hnext

/-- Replacing bytes keeps the attributes readable. -/
theorem keepsReadable_write (position : Nat) (bytes : List UInt8) (cursor : Cursor) :
    cursor.code.KeepsReadable ((write position bytes).runOn cursor).2.code :=
  keepsReadable_onCode cursor fun _ hnext => Code.keepsReadable_write hnext

/-- Whatever a request does to a body, and whether it can be met or not, the
attributes are read back if they were before. -/
theorem Request.keepsReadable (request : Request) (cursor : Cursor) :
    cursor.code.KeepsReadable (request.edit.runOn cursor).2.code := by
  cases request with
  | write position bytes => exact keepsReadable_write position bytes cursor
  | writeByte position value => exact keepsReadable_write position [value] cursor
  | writeU16 position value => exact keepsReadable_write position _ cursor
  | writeI32 position value => exact keepsReadable_write position _ cursor
  | insertGap position length exclusive =>
    unfold edit
    rw [Edit.runOn_bind, runOn_insertGap]
    rcases hnext : cursor.code.insertGap position length exclusive with e | ⟨s, next⟩
    · exact .refl cursor.code
    · exact Code.keepsReadable_insertGap hnext
  | insertBytes position bytes =>
    unfold edit
    rw [Edit.runOn_bind, runOn_insertBytes]
    rcases hnext : cursor.code.insertBytes position bytes with e | ⟨s, next⟩
    · exact .refl cursor.code
    · exact Code.keepsReadable_insertBytes hnext
  | insertHandlers handlers offset =>
    exact keepsReadable_onCode cursor fun _ hnext => Code.keepsReadable_insertHandlers hnext

end Cursor

end JvmClass
