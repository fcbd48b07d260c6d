import JvmClass.Proofs.Code.InSteps
import JvmClass.Proofs.Code.StackMapShifts
import JvmClass.Proofs.Instruction.Watched

/-!
# Watched gaps

The insertion of a gap, watched in every place where it would crash if the code or the
stack map were not what it takes them for. It does not crash, whatever the body.
-/

namespace JvmClass

open Watched (ofEdit ofStep demand crash)

variable {σ : Type}

/-- An attribute of a body after bytes are inserted. No distance between the frames of a
stack map may be below zero. -/
def Attribute.watchedShift (s : Shift) (a : Attribute) : Watched σ Attribute :=
  match a.body with
  | .data (.stackMap frames) => do
    let frames ← demand (StackMap.shift? s frames)
    pure { a with body := .data (.stackMap frames) }
  | _ => pure (a.shift s)

/-- Attributes are shifted without a crash. -/
theorem Attribute.watchedShift_eq (s : Shift) (a : Attribute) :
    (a.watchedShift s : Watched σ Attribute) = pure (a.shift s) := by
  obtain ⟨nameIndex, body⟩ := a
  unfold watchedShift
  split
  · next frames hbody =>
    dsimp only at hbody
    subst hbody
    rw [StackMap.shift?_eq]
    rfl
  · rfl

/-- Code with a gap, which cannot be behind its end. -/
def Bytecode.watchedWithGap (code : Bytecode) (s : Shift) : Watched σ Bytecode :=
  if s.position ≤ code.size then pure (code.withGap s) else crash

namespace Code

/-- Insert a gap for `length` bytes before the instruction at a position. -/
def watchedInsertGap (code : Code) (position length : Nat) (exclusive : Bool) :
    Watched σ (Shift × Code) :=
  if length = 0 then pure (⟨position, 0, exclusive⟩, code)
  else if code.bytes.size < position then throw (.malformed (.gapPosition position))
  else
    let s : Shift := ⟨position, gapLength length, exclusive⟩
    if 65535 < code.bytes.size + s.gap then throw (.overflow .codeLength)
    else do
      let bytes ← Bytecode.watchedRelocateBranches code.bytes s
      let bytes ← Bytecode.watchedWithGap bytes s
      let attributes ← code.attributes.mapM (Attribute.watchedShift s)
      pure (s, { code with bytes, handlers := code.handlers.map (Handler.shift s), attributes })

/-- A gap is inserted without a crash. -/
theorem watchedInsertGap_eq (code : Code) (position length : Nat) (exclusive : Bool) :
    (code.watchedInsertGap position length exclusive : Watched σ (Shift × Code)) =
      ofStep (code.insertGap position length exclusive) := by
  unfold watchedInsertGap insertGap
  split
  · rfl
  split
  · rfl
  next hposition =>
  dsimp only
  split
  · rfl
  · unfold makeRoom
    rw [Bytecode.watchedRelocateBranches_eq]
    cases hbytes : Bytecode.relocateBranches code.bytes ⟨position, gapLength length, exclusive⟩ with
    | error e => rfl
    | ok bytes =>
      have hsize := Bytecode.size_of_relocateBranches hbytes
      have hattributes (s : Shift) : (code.attributes.mapM (Attribute.watchedShift s) :
          Watched σ (List Attribute)) = pure (code.attributes.map (Attribute.shift s)) := by
        rw [funext (Attribute.watchedShift_eq s)]
        exact List.mapM_pure
      show Bytecode.watchedWithGap bytes _ >>= _ = _
      rw [Bytecode.watchedWithGap, if_pos (show position ≤ bytes.size by omega), pure_bind,
        hattributes, pure_bind]
      rfl

end Code

/-- Insert a gap at a cursor. -/
def Cursor.watchedInsertGap (position length : Nat) (exclusive : Bool) : Watched Cursor Shift := do
  let cursor ← get
  let (s, code) ← cursor.code.watchedInsertGap position length exclusive
  set (Cursor.mk code (s.target cursor.position))
  pure s

/-- A gap is inserted at a cursor without a crash. -/
theorem Cursor.watchedInsertGap_eq (position length : Nat) (exclusive : Bool) :
    watchedInsertGap position length exclusive = ofEdit (insertGap position length exclusive) := by
  funext cursor
  have hrun : ofEdit (insertGap position length exclusive) cursor =
      some ((insertGap position length exclusive).runOn cursor) := rfl
  rw [hrun, runOn_insertGap]
  show (cursor.code.watchedInsertGap position length exclusive >>= fun x => do
    set (Cursor.mk x.2 (x.1.target cursor.position))
    pure x.1 : Watched Cursor Shift) cursor = _
  rw [Code.watchedInsertGap_eq, Watched.bind_apply]
  cases cursor.code.insertGap position length exclusive <;> rfl

end JvmClass
