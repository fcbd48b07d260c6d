import JvmClass.Proofs.Code.Cursor
import JvmClass.Proofs.Code.GapInsertion

/-!
# Insertion step by step

A body is changed in place by many writes: branch by branch, then the bytes of
the gap, the exception table and the attributes, and at last the bytes for which
the gap was made. Here the insertions are spelled out as such sequences of
writes to one cursor, each of which would stay done if a later step failed. They
are the insertions that take effect as a whole: all that can fail comes before
the first write, except for the last one, which has the room it needs.
-/

namespace JvmClass

namespace Bytecode

/-- The patches of all branch fields for bytes that are about to be inserted. -/
def branchPatches (code : Bytecode) (s : Shift) : Except Error (Array Patch) :=
  code.foldInstructions (m := Except Error)
    (fun (patches : Array Patch) position op =>
      (code.branchFields position op).foldlM
        (fun patches field => do
          let patch ← code.relocateField s field
          pure (patches.push patch))
        patches)
    #[] 0

/-- Every patch is known before the first one is written. -/
theorem relocateBranches_eq_branchPatches (code : Bytecode) (s : Shift) :
    code.relocateBranches s =
      (code.branchPatches s >>= fun patches => pure (code.applyPatches patches.toList)) := rfl

/-- Relocating branches leaves the length of the code. -/
theorem size_of_relocateBranches {code new : Bytecode} {s : Shift}
    (h : code.relocateBranches s = .ok new) : new.size = code.size := by
  rw [relocateBranches_eq_branchPatches] at h
  obtain ⟨patches, -, h⟩ := bind_eq_ok_iff.mp h
  cases h
  exact size_applyPatches ..

end Bytecode

namespace Code

variable {code new : Code} {position length : Nat} {exclusive : Bool}

/-- A body with room has its length and that of the gap. -/
theorem size_of_makeRoom {s : Shift} (hposition : s.position ≤ code.bytes.size)
    (h : code.makeRoom s = .ok new) : new.bytes.size = code.bytes.size + s.gap := by
  obtain ⟨bytes, hbytes, h⟩ := bind_eq_ok_iff.mp h
  have hsize := Bytecode.size_of_relocateBranches hbytes
  cases h
  show (Bytecode.withGap bytes s).size = _
  rw [Bytecode.size_withGap (by rwa [hsize]), hsize]

/-- Bytes for which a gap was made have room in it. -/
theorem write_of_insertGap {s : Shift} {bytes : List UInt8} (hbytes : bytes ≠ [])
    (h : code.insertGap position bytes.length exclusive = .ok (s, new)) :
    ∃ written, new.write position bytes = .ok written := by
  have hlength := List.length_pos_iff.mpr hbytes
  obtain ⟨-, ⟨hzero, -⟩ | ⟨-, -, hmade⟩⟩ := insertGap_cases h
  · omega
  · have hroom := (le_gapLength bytes.length).1
    -- a gap outside the code is refused before anything else
    have hinside : position ≤ code.bytes.size := by
      by_contra houtside
      unfold insertGap at h
      rw [if_neg (by omega), if_pos (by omega)] at h
      cases h
    have hsize := size_of_makeRoom hinside hmade
    dsimp only at hsize
    exact ⟨_, write_eq_ok_iff.mpr ⟨by omega, rfl⟩⟩

end Code

namespace Cursor

/-- Change the body by a write that cannot fail. -/
def change (f : Code → Code) : Edit Cursor Unit := modify fun c => { c with code := f c.code }

/-- Write one patch into the code. -/
def writePatch (patch : Patch) : Edit Cursor Unit :=
  change fun code =>
    { code with bytes := Bytecode.overwrite code.bytes patch.position patch.bytes }

/-- Insert a gap, one write after the other. -/
def insertGapInSteps (position length : Nat) (exclusive : Bool) : Edit Cursor Shift := do
  let cursor ← get
  if length = 0 then pure ⟨position, 0, exclusive⟩
  else if cursor.code.bytes.size < position then throw (.malformed (.gapPosition position))
  else
    let s : Shift := ⟨position, Code.gapLength length, exclusive⟩
    if 65535 < cursor.code.bytes.size + s.gap then throw (.overflow .codeLength)
    else do
      let patches ← (Bytecode.branchPatches cursor.code.bytes s : Except Error _)
      patches.toList.forM writePatch
      change fun code => { code with bytes := Bytecode.withGap code.bytes s }
      change fun code => { code with handlers := code.handlers.map (Handler.shift s) }
      change fun code => { code with attributes := code.attributes.map (Attribute.shift s) }
      modify fun cursor => { cursor with position := s.target cursor.position }
      pure s

/-- Insert bytes, which are written after their gap is there. -/
def insertBytesInSteps (position : Nat) (bytes : List UInt8) : Edit Cursor Nat := do
  let s ← insertGapInSteps position bytes.length false
  write s.position bytes
  pure s.position

/-- A write that cannot fail. -/
@[simp]
theorem runOn_change (f : Code → Code) (cursor : Cursor) :
    (change f).runOn cursor = (.ok (), { cursor with code := f cursor.code }) := rfl

/-- Patches that are written one by one are applied. -/
theorem runOn_forM_writePatch (patches : List Patch) (cursor : Cursor) :
    (patches.forM writePatch).runOn cursor =
      (.ok (), { cursor with
        code := { cursor.code with
          bytes := Bytecode.applyPatches cursor.code.bytes patches } }) := by
  induction patches generalizing cursor with
  | nil =>
    obtain ⟨⟨⟩, place⟩ := cursor
    rfl
  | cons patch patches ih =>
    rw [Edit.runOn_forM_cons]
    unfold writePatch at ih ⊢
    rw [runOn_change]
    exact ih _

/-- A gap is inserted by its steps. -/
theorem insertGapInSteps_eq (position length : Nat) (exclusive : Bool) :
    insertGapInSteps position length exclusive = insertGap position length exclusive := by
  funext cursor
  show (insertGapInSteps position length exclusive).runOn cursor =
    (insertGap position length exclusive).runOn cursor
  rw [runOn_insertGap]
  unfold insertGapInSteps Code.insertGap
  rw [Edit.runOn_bind, Edit.runOn_get]
  dsimp only
  split
  · -- a gap of no bytes takes the cursor nowhere
    dsimp only
    rw [Edit.runOn_pure, Shift.target_of_gap_eq_zero _ rfl]
  · split
    · rfl
    · split
      · rfl
      · unfold Code.makeRoom
        rw [Bytecode.relocateBranches_eq_branchPatches, Edit.runOn_bind, Edit.runOn_lift]
        cases Bytecode.branchPatches cursor.code.bytes ⟨position, Code.gapLength length, exclusive⟩ with
        | error e => rfl
        | ok patches =>
          simp only [Edit.runOn_bind, runOn_forM_writePatch, runOn_change, Edit.runOn_modify,
            Edit.runOn_pure]
          rfl

/-- Bytes are inserted by their steps. -/
theorem insertBytesInSteps_eq (position : Nat) (bytes : List UInt8) :
    insertBytesInSteps position bytes = insertBytes position bytes := by
  funext cursor
  show (insertBytesInSteps position bytes).runOn cursor = (insertBytes position bytes).runOn cursor
  rw [runOn_insertBytes]
  unfold insertBytesInSteps Code.insertBytes
  rw [Edit.runOn_bind, insertGapInSteps_eq, runOn_insertGap]
  cases hgap : cursor.code.insertGap position bytes.length false with
  | error e => rfl
  | ok result =>
    obtain ⟨s, opened⟩ := result
    obtain ⟨rfl, -⟩ := Code.insertGap_cases hgap
    simp only [ok_bind, Edit.runOn_bind, write, runOn_onCode, Edit.runOn_pure]
    cases hwrite : opened.write position bytes with
    | ok written => rfl
    | error e =>
      -- only where no bytes are written can they lie outside the code
      have hempty : bytes = [] := by
        by_contra hbytes
        obtain ⟨written, hwritten⟩ := Code.write_of_insertGap hbytes hgap
        cases hwrite.symm.trans hwritten
      subst hempty
      cases hgap
      dsimp only
      rw [Shift.target_of_gap_eq_zero _ rfl]
      rfl

/-- A change of the body that may fail leaves everything as it is if it does. -/
theorem allOrNothing_onCode (f : Code → Except Error Code) : (onCode f).AllOrNothing id := by
  intro cursor e left h
  rw [runOn_onCode] at h
  cases hcode : f cursor.code with
  | ok code =>
    rw [hcode] at h
    cases h
  | error e =>
    rw [hcode] at h
    cases h
    rfl

/-- Whatever is inserted, be it a gap, bytes or handlers, is inserted as a whole or not
at all. For every body, well-formed or not, and every cursor on it, an insertion that
fails leaves the code, the exception table, all attributes, the limits and the cursor
as they were. That is so although a gap and bytes are inserted in place, by one write
after the other. -/
theorem insertions_allOrNothing :
    (∀ position length exclusive,
      (insertGap position length exclusive).AllOrNothing id ∧
        insertGapInSteps position length exclusive = insertGap position length exclusive) ∧
      (∀ position bytes,
        (insertBytes position bytes).AllOrNothing id ∧
          insertBytesInSteps position bytes = insertBytes position bytes) ∧
      ∀ handlers offset, (insertHandlers handlers offset).AllOrNothing id := by
  refine ⟨fun position length exclusive => ⟨?_, insertGapInSteps_eq ..⟩,
    fun position bytes => ⟨?_, insertBytesInSteps_eq ..⟩,
    fun handlers offset => allOrNothing_onCode _⟩
  · intro cursor e left h
    rw [runOn_insertGap] at h
    split at h
    · cases h
    · cases h
      rfl
  · intro cursor e left h
    rw [runOn_insertBytes] at h
    split at h
    · cases h
    · cases h
      rfl

/-- A jump to the end, and one as far as its offset can reach. -/
def farJump : Code where
  maxStack := 0
  maxLocals := 0
  bytes := #[0xa7, 0, 6, 0xa7, 0x7f, 0xff, 0xb1]
  handlers := [⟨0, 6, 6, 0⟩]
  attributes := []

/-- A gap before the end lengthens both jumps. The first one could be adjusted, but is
not, as the second one cannot. -/
theorem insertions_allOrNothing_farJump :
    (Bytecode.relocateField farJump.bytes ⟨6, 4, true⟩ ⟨0, 1, false⟩ = .ok ⟨1, [0, 10]⟩) ∧
      (insertGapInSteps 6 1 true).runOn (.ofCode farJump) =
        (.error (.overflow .branchOffset), .ofCode farJump) := by
  obtain ⟨hleaves, hsteps⟩ := insertions_allOrNothing.1 6 1 true
  have hfails : ((insertGap 6 1 true).runOn (.ofCode farJump)).1 =
      .error (.overflow .branchOffset) := by decide +kernel
  have hrun := Edit.runOn_eq_of_fst _ hfails
  refine ⟨by decide +kernel, ?_⟩
  rw [hsteps, hrun]
  exact Prod.ext rfl (hleaves _ _ _ hrun)

end Cursor

end JvmClass
