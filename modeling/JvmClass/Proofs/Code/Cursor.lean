import JvmClass.Code.Cursor
import JvmClass.Proofs.Edit
import JvmClass.Proofs.Instruction.Bytes

/-!
# Cursors

What a cursor reads, how it moves on, and what the body is after bytes were
written or inserted through it. A step that fails leaves the cursor as it was.
-/

namespace JvmClass

namespace Code

variable {code new : Code} {position : Nat}

/-- Writing leaves everything but the bytes at its place. -/
theorem write_eq_ok_iff {bytes : List UInt8} :
    code.write position bytes = .ok new ↔ position + bytes.length ≤ code.bytes.size ∧
      new = { code with bytes := Bytecode.overwrite code.bytes position bytes } := by
  unfold write
  split
  · next hsize =>
    rw [Except.ok.injEq, eq_comm]
    exact (and_iff_right hsize).symm
  · next hsize => exact iff_of_false (fun h => by cases h) fun h => hsize h.1

end Code

namespace Cursor

variable {α : Type} {read : Bytecode → Nat → Option α} {cursor cursor' : Cursor} {p : Nat}

/-! ## Reading -/

/-- A number is there exactly if it can be read. -/
theorem require_eq_ok_iff {a : α} :
    cursor.require p read = .ok a ↔ read cursor.code.bytes p = some a := by
  unfold require
  cases read cursor.code.bytes p <;> simp

/-- Two bodies that are read alike hold the same number. -/
theorem require_congr (h : read cursor'.code.bytes p = read cursor.code.bytes p) :
    cursor'.require p read = cursor.require p read := by
  unfold require
  rw [h]

/-! ## Moving on -/

/-- Moving on passes a complete instruction. -/
theorem runOn_next (cursor : Cursor) :
    next.runOn cursor =
      match Bytecode.instructionLength cursor.code.bytes cursor.position with
      | .ok length => (.ok cursor.position, { cursor with position := cursor.position + length })
      | .error e => (.error e, cursor) := by
  unfold next
  simp only [Edit.runOn_bind, Edit.runOn_get, Edit.runOn_lift]
  cases Bytecode.instructionLength cursor.code.bytes cursor.position <;> rfl

/-- Moving on to the next instruction leaves the body as it is. -/
theorem code_next (cursor : Cursor) : (next.runOn cursor).2.code = cursor.code := by
  unfold next
  simp only [Edit.runOn_bind, Edit.runOn_get, Edit.runOn_lift]
  cases Bytecode.instructionLength cursor.code.bytes cursor.position <;> rfl

/-- There is a next instruction where one is complete. -/
theorem hasNext_of_instructionLength {length : Nat}
    (hl : Bytecode.instructionLength cursor.code.bytes cursor.position = .ok length) :
    cursor.hasNext = true := by
  have hone := Bytecode.one_le_instructionLength hl
  have hle := Bytecode.add_instructionLength_le hl
  exact decide_eq_true (by omega)

/-! ## Editing -/

/-- A body is changed through a cursor, or left as it is. -/
theorem runOn_onCode (f : Code → Except Error Code) (cursor : Cursor) :
    (onCode f).runOn cursor =
      match f cursor.code with
      | .ok code => (.ok (), { cursor with code })
      | .error e => (.error e, cursor) := by
  unfold onCode
  simp only [Edit.runOn_bind, Edit.runOn_get, Edit.runOn_lift]
  cases f cursor.code <;> rfl

/-- Bytes are inserted into the body of a cursor, or it is left as it is. -/
theorem runOn_insertBytes (position : Nat) (bytes : List UInt8) (cursor : Cursor) :
    (insertBytes position bytes).runOn cursor =
      match cursor.code.insertBytes position bytes with
      | .ok (s, code) => (.ok s.position, ⟨code, s.target cursor.position⟩)
      | .error e => (.error e, cursor) := by
  unfold insertBytes
  simp only [Edit.runOn_bind, Edit.runOn_get, Edit.runOn_lift]
  cases cursor.code.insertBytes position bytes <;> rfl

/-- Bytes that are replaced lie within the code, and the cursor stays. -/
theorem runOn_write_eq_ok_iff {bytes : List UInt8} :
    (write p bytes).runOn cursor = (.ok (), cursor') ↔
      p + bytes.length ≤ cursor.code.bytes.size ∧ cursor' =
        { cursor with
          code := { cursor.code with
            bytes := Bytecode.overwrite cursor.code.bytes p bytes } } := by
  unfold write
  rw [runOn_onCode]
  cases hcode : cursor.code.write p bytes with
  | error e =>
    refine iff_of_false (fun h => by cases h) fun ⟨hroom, _⟩ => ?_
    cases hcode.symm.trans (Code.write_eq_ok_iff.mpr ⟨hroom, rfl⟩)
  | ok code =>
    obtain ⟨hroom, rfl⟩ := Code.write_eq_ok_iff.mp hcode
    rw [Prod.mk.injEq, eq_comm (b := cursor')]
    exact ⟨fun h => ⟨hroom, h.2⟩, fun h => ⟨rfl, h.2⟩⟩

/-- Bytes are inserted at the position that is asked for, and the cursor stays with its
instruction. -/
theorem insertBytes_of_runOn {position place : Nat} {bytes : List UInt8}
    (h : (insertBytes position bytes).runOn cursor = (.ok place, cursor')) :
    ∃ s code, cursor.code.insertBytes position bytes = .ok (s, code) ∧ place = s.position ∧
      cursor' = ⟨code, s.target cursor.position⟩ := by
  rw [runOn_insertBytes] at h
  cases hcode : cursor.code.insertBytes position bytes with
  | error e =>
    rw [hcode] at h
    cases h
  | ok result =>
    rw [hcode] at h
    cases h
    exact ⟨_, _, rfl, rfl, rfl⟩

/-- Two bytes that are replaced lie within the code. -/
theorem overwrite_of_writeU16 {n : UInt16}
    (h : (writeU16 p n).runOn cursor = (.ok (), cursor')) :
    p + 2 ≤ cursor.code.bytes.size ∧ cursor' =
      { cursor with
        code := { cursor.code with
          bytes := Bytecode.overwrite cursor.code.bytes p (Codec.bytesOfU16 n) } } :=
  runOn_write_eq_ok_iff.mp h

end Cursor

end JvmClass
