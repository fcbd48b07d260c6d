import JvmClass.Code.Cursor
import JvmClass.Proofs.Code.Shift
import JvmClass.Proofs.Edit
import JvmClass.Proofs.Instruction.Relocation

/-!
# Gap insertion

Inserting a gap relocates all code. Every instruction is found where the shift
puts it, its branches lead to the same instructions as before, and the gap
consists of instructions that do nothing. It fails exactly if the code would
become too long or a branch would not reach its target any more, and then
changes nothing.
-/

namespace JvmClass

/-- Where instructions start after a gap is inserted: the old ones where they
have moved to, and one at every byte of the gap. -/
def Shift.insertedStarts (s : Shift) (starts : List Nat) : List Nat :=
  (starts.filter (· < s.position)).map s.start ++ List.range' s.position s.gap ++
    (starts.filter (s.position ≤ ·)).map s.start

/-- A handler stays as it is if nothing is inserted. -/
theorem Handler.shift_of_gap_eq_zero {s : Shift} (hgap : s.gap = 0) (h : Handler) :
    h.shift s = h := by
  unfold shift
  simp only [s.target16_of_gap_eq_zero hgap]

namespace Code

variable {code : Code} {starts : List Nat} {position length : Nat} {exclusive : Bool}

/-- The body after a gap is inserted, with the distances of these branch fields
adjusted. -/
def relocated (code : Code) (s : Shift) (fields : List BranchField) : Code :=
  { code with
    bytes := (Bytecode.applyPatches code.bytes
      (fields.map (Bytecode.relocatedPatch code.bytes s))).withGap s
    handlers := code.handlers.map (Handler.shift s)
    attributes := code.attributes.map (Attribute.shift s) }

/-- The branch fields of the instructions that start at some positions. -/
def branchFields (code : Code) (starts : List Nat) : List BranchField :=
  starts.flatMap (Bytecode.branchFieldsAt code.bytes)

/-- The length of a gap is a multiple of four. -/
theorem gapLength_mod_four (length : Nat) : gapLength length % 4 = 0 := Nat.mul_mod_left ..

/-- A gap has room for what it is made for, and less than four bytes more. -/
theorem le_gapLength (length : Nat) :
    length ≤ gapLength length ∧ gapLength length < length + 4 := by
  unfold gapLength
  omega

/-- Room can be made in code that can be walked exactly if every new distance
fits its field. -/
theorem makeRoom_eq (walk : Bytecode.Walk code.bytes 0 starts code.bytes.size) (s : Shift) :
    code.makeRoom s =
      if ∀ field ∈ code.branchFields starts,
        field.Fits (Bytecode.relocatedOffset code.bytes s field)
      then .ok (code.relocated s (code.branchFields starts))
      else .error (.overflow .branchOffset) := by
  unfold makeRoom branchFields
  rw [Bytecode.relocateBranches_eq walk]
  split
  · simp [bind, Except.bind, pure, Except.pure, relocated, Bytecode.withGap]
  · rfl

/-- What inserting a gap does to a body whose code can be walked. -/
theorem insertGap_eq (walk : Bytecode.Walk code.bytes 0 starts code.bytes.size)
    (hposition : position ≤ code.bytes.size) (hlength : 0 < length) :
    code.insertGap position length exclusive =
      if 65535 < code.bytes.size + gapLength length then .error (.overflow .codeLength)
      else if ∀ field ∈ code.branchFields starts, field.Fits
        (Bytecode.relocatedOffset code.bytes ⟨position, gapLength length, exclusive⟩ field)
      then .ok (⟨position, gapLength length, exclusive⟩,
        code.relocated ⟨position, gapLength length, exclusive⟩ (code.branchFields starts))
      else .error (.overflow .branchOffset) := by
  unfold insertGap
  rw [if_neg (by omega), if_neg (by omega)]
  by_cases hlong : 65535 < code.bytes.size + gapLength length
  · rw [if_pos hlong, if_pos hlong]
  · rw [if_neg hlong, if_neg hlong, makeRoom_eq walk]
    split <;> rfl

/-- A gap cannot be inserted exactly if the code would become too long or some
distance would not fit its field. -/
theorem exists_insertGap_eq_error_iff
    (walk : Bytecode.Walk code.bytes 0 starts code.bytes.size)
    (hposition : position ≤ code.bytes.size) (hlength : 0 < length) (exclusive : Bool) :
    (∃ e, code.insertGap position length exclusive = .error e) ↔
      65535 < code.bytes.size + gapLength length ∨
        ∃ p ∈ starts, ∃ field ∈ Bytecode.branchFieldsAt code.bytes p, ¬ field.Fits
          (Bytecode.relocatedOffset code.bytes ⟨position, gapLength length, exclusive⟩ field) := by
  rw [insertGap_eq walk hposition hlength]
  by_cases hlong : 65535 < code.bytes.size + gapLength length
  · rw [if_pos hlong]
    exact iff_of_true ⟨_, rfl⟩ (.inl hlong)
  · rw [if_neg hlong]
    by_cases hfits : ∀ field ∈ code.branchFields starts, field.Fits
        (Bytecode.relocatedOffset code.bytes ⟨position, gapLength length, exclusive⟩ field)
    · rw [if_pos hfits]
      refine iff_of_false (fun ⟨e, h⟩ => by cases h) ?_
      rintro (h | ⟨p, hp, field, hfield, hnot⟩)
      · exact hlong h
      · exact hnot (hfits field (List.mem_flatMap.mpr ⟨p, hp, hfield⟩))
    · rw [if_neg hfits]
      refine iff_of_true ⟨_, rfl⟩ (.inr ?_)
      obtain ⟨field, hnot⟩ := Classical.not_forall.mp hfits
      obtain ⟨hfield, hnot⟩ := Classical.not_imp.mp hnot
      obtain ⟨p, hp, hfield⟩ := List.mem_flatMap.mp hfield
      exact ⟨p, hp, field, hfield, hnot⟩

variable {s : Shift}

/-- The instructions of a relocated body are relocated. -/
theorem relocated_bytes (walk : Bytecode.Walk code.bytes 0 starts code.bytes.size)
    (hposition : s.position ∈ starts ∨ s.position = code.bytes.size) (hgap : s.gap % 4 = 0)
    (hfits : ∀ field ∈ code.branchFields starts,
      field.Fits (Bytecode.relocatedOffset code.bytes s field))
    {p : Nat} (hp : p ∈ starts) :
    Bytecode.Relocated s code.bytes (code.relocated s (code.branchFields starts)).bytes p := by
  obtain ⟨n, hl⟩ := walk.exists_length hp
  have hend := Bytecode.add_instructionLength_le hl
  have hinside : s.position ≤ code.bytes.size := by
    rcases hposition with hposition | hposition
    · exact Nat.le_of_lt (walk.mem_bounds hposition).2
    · exact Nat.le_of_eq hposition
  refine (walk.patchedInstruction (s := s) hp hl).relocated hl hgap ?_ ?_ ?_
  · intro i hi
    -- the gap does not lie within the instruction
    have hplace : s.start p + i = s.start (p + i) := by
      unfold Shift.start
      by_cases hbehind : s.position ≤ p
      · rw [if_pos hbehind, if_pos (by omega)]
        omega
      · have hnext := walk.add_length_le hp hl hposition (by omega)
        rw [if_neg hbehind, if_neg (by omega)]
    rw [hplace]
    exact Bytecode.getElem?_withGap_start (by rw [Bytecode.size_applyPatches]; exact hinside) _
  · show s.start p + n ≤ (Bytecode.withGap _ s).size
    rw [Bytecode.size_withGap (by rw [Bytecode.size_applyPatches]; exact hinside),
      Bytecode.size_applyPatches]
    unfold Shift.start
    split <;> omega
  · exact fun field hfield => hfits field (List.mem_flatMap.mpr ⟨p, hp, hfield⟩)

/-- The gap of a relocated body does nothing. -/
theorem relocated_gap {fields : List BranchField} (hposition : s.position ≤ code.bytes.size)
    {i : Nat} (hi : s.position ≤ i) (hi' : i < s.position + s.gap) :
    (code.relocated s fields).bytes[i]? = some Opcode.nop :=
  Bytecode.getElem?_withGap_of_inside (by rw [Bytecode.size_applyPatches]; exact hposition) hi hi'

/-- A relocated body is longer by the gap. -/
theorem size_relocated {fields : List BranchField} (hposition : s.position ≤ code.bytes.size) :
    (code.relocated s fields).bytes.size = code.bytes.size + s.gap := by
  show (Bytecode.withGap _ s).size = _
  rw [Bytecode.size_withGap (by rw [Bytecode.size_applyPatches]; exact hposition),
    Bytecode.size_applyPatches]

/-- A gap that is inserted fits 16 bits together with the code, if it has any
length, and the body is the relocated one. -/
theorem insertGap_cases {inserted : Shift} {next : Code}
    (h : code.insertGap position length exclusive = .ok (inserted, next)) :
    inserted = ⟨position, gapLength length, exclusive⟩ ∧
      (length = 0 ∧ next = code ∨
        0 < length ∧ code.bytes.size + gapLength length ≤ 65535 ∧
          code.makeRoom ⟨position, gapLength length, exclusive⟩ = .ok next) := by
  unfold insertGap at h
  split at h
  · next hzero =>
    cases h
    rw [hzero]
    exact ⟨rfl, .inl ⟨rfl, rfl⟩⟩
  · split at h
    · cases h
    · simp only at h
      split at h
      · cases h
      · next hroom =>
        obtain ⟨made, hmade, h⟩ := bind_eq_ok_iff.mp h
        cases h
        exact ⟨rfl, .inr ⟨by omega, by omega, hmade⟩⟩

/-- What a body is like after a gap was inserted, be it one of no bytes. -/
structure Opened (s : Shift) (starts : List Nat) (old new : Code) : Prop where
  /-- It is longer by the gap. -/
  size : new.bytes.size = old.bytes.size + s.gap
  /-- Its instructions are relocated. -/
  instructions : ∀ p ∈ starts, Bytecode.Relocated s old.bytes new.bytes p
  /-- The gap does nothing. -/
  gap : ∀ i, s.position ≤ i → i < s.position + s.gap → new.bytes[i]? = some Opcode.nop
  /-- The handlers are shifted. -/
  handlers : new.handlers = old.handlers.map (Handler.shift s)
  /-- The attributes are shifted if the gap has any bytes. -/
  attributes : new.attributes =
    if s.gap = 0 then old.attributes else old.attributes.map (Attribute.shift s)
  /-- The limits stay. -/
  limits : (new.maxStack, new.maxLocals) = (old.maxStack, old.maxLocals)
  /-- All positions fit 16 bits if the gap has any bytes. -/
  room : s.gap = 0 ∨ old.bytes.size + s.gap ≤ 65535

/-- Inserting a gap opens a body. -/
theorem opened_of_insertGap (walk : Bytecode.Walk code.bytes 0 starts code.bytes.size)
    (hposition : position ∈ starts ∨ position = code.bytes.size) {inserted : Shift} {next : Code}
    (h : code.insertGap position length exclusive = .ok (inserted, next)) :
    Opened ⟨position, gapLength length, exclusive⟩ starts code next := by
  rcases (insertGap_cases h).2 with ⟨rfl, rfl⟩ | ⟨hlength, hroom, hmade⟩
  · have hgap : gapLength 0 = 0 := rfl
    refine ⟨rfl, fun p hp => ?_, fun i hi hi' => ?_, ?_, ?_, rfl, .inl hgap⟩
    · obtain ⟨n, hl⟩ := walk.exists_length hp
      exact Bytecode.relocated_self hgap hl
    · dsimp only at hi hi'
      omega
    · have hsame : Handler.shift ⟨position, gapLength 0, exclusive⟩ = id :=
        funext (Handler.shift_of_gap_eq_zero hgap)
      rw [hsame, List.map_id]
    · exact (if_pos hgap).symm
  · rw [makeRoom_eq walk] at hmade
    split at hmade
    · next hfits =>
      cases hmade
      have hinside := (walk.cut hposition).2.le
      refine ⟨size_relocated hinside,
        fun p hp => relocated_bytes walk hposition (gapLength_mod_four length) hfits hp,
        fun i hi hi' => relocated_gap hinside hi hi', rfl, ?_, rfl, .inr hroom⟩
      have hsome : gapLength length ≠ 0 := by
        have h := le_gapLength length
        omega
      exact (if_neg hsome).symm
    · cases hmade

/-- A body with a gap can be walked over the moved starts and the gap. -/
theorem Opened.starts_eq {new : Code} (opened : Opened s starts code new)
    (walk : Bytecode.Walk code.bytes 0 starts code.bytes.size)
    (hposition : s.position ∈ starts ∨ s.position = code.bytes.size) :
    Bytecode.starts new.bytes = .ok (s.insertedStarts starts) := by
  obtain ⟨before, behind⟩ := walk.cut hposition
  have hmem : ∀ {P : Nat → Bool}, ∀ p ∈ starts.filter P,
      Bytecode.Relocated s code.bytes new.bytes p :=
    fun p hp => opened.instructions p (List.mem_filter.mp hp).1
  have hnops : Bytecode.Walk new.bytes s.position (List.range' s.position s.gap)
      (s.position + s.gap) :=
    .nops fun i hi => opened.gap _ (by omega) (by omega)
  rw [Bytecode.starts_eq_ok_iff, opened.size]
  exact ((before.before_gap hmem).trans hnops).trans (behind.behind_gap (Nat.le_refl _) hmem)

end Code

namespace Cursor

/-- A gap is inserted into the body of a cursor. The cursor stays with its
instruction, and with everything else if the body cannot be changed. -/
theorem runOn_insertGap (cursor : Cursor) (position length : Nat) (exclusive : Bool) :
    (insertGap position length exclusive).runOn cursor =
      match cursor.code.insertGap position length exclusive with
      | .ok (s, code) => (.ok s, ⟨code, s.target cursor.position⟩)
      | .error e => (.error e, cursor) := by
  unfold insertGap
  simp only [Edit.runOn_bind, Edit.runOn_get, Edit.runOn_lift]
  cases cursor.code.insertGap position length exclusive <;> rfl

/-- For a body that is a sequence of complete instructions and a gap at the start
of one of them or at the end, all of the following holds. If the gap is inserted,
the new body is a sequence of complete instructions again: the old ones where
the shift puts them, each with its bytes and with branches to where their
targets have gone, and the instructions of the gap, which do nothing. It is not
inserted exactly if the code would become too long or some distance would not
fit its field, and then nothing changes. -/
theorem insertGap_relocates (cursor : Cursor) {starts : List Nat} {position length : Nat}
    (exclusive : Bool) (hstarts : Bytecode.starts cursor.code.bytes = .ok starts)
    (hposition : position ∈ starts ∨ position = cursor.code.bytes.size) (hlength : 0 < length) :
    let s : Shift := ⟨position, Code.gapLength length, exclusive⟩
    let outcome := (insertGap position length exclusive).runOn cursor
    (∀ inserted next, outcome = (.ok inserted, next) →
      inserted = s ∧
        Bytecode.starts next.code.bytes = .ok (s.insertedStarts starts) ∧
        (∀ i, position ≤ i → i < position + s.gap → next.code.bytes[i]? = some Opcode.nop) ∧
        ∀ p ∈ starts, Bytecode.Relocated s cursor.code.bytes next.code.bytes p) ∧
      ((∃ e next, outcome = (.error e, next)) ↔
        65535 < cursor.code.bytes.size + s.gap ∨
          ∃ p ∈ starts, ∃ field ∈ Bytecode.branchFieldsAt cursor.code.bytes p,
            ¬ field.Fits (Bytecode.relocatedOffset cursor.code.bytes s field)) ∧
      ∀ e next, outcome = (.error e, next) → next = cursor := by
  intro s outcome
  have walk := Bytecode.starts_eq_ok_iff.mp hstarts
  have hinside : position ≤ cursor.code.bytes.size := (walk.cut hposition).2.le
  have hfails := Code.exists_insertGap_eq_error_iff walk hinside hlength exclusive
  have houtcome := runOn_insertGap cursor position length exclusive
  cases hinserted : cursor.code.insertGap position length exclusive with
  | error e =>
    rw [hinserted] at houtcome
    have houtcome : outcome = (.error e, cursor) := houtcome
    rw [houtcome]
    refine ⟨fun _ _ h => (by cases h), ?_, ?_⟩
    · exact iff_of_true ⟨_, _, rfl⟩ (hfails.mp ⟨e, hinserted⟩)
    · intro e next h
      cases h
      rfl
  | ok result =>
    obtain ⟨inserted, made⟩ := result
    rw [hinserted] at houtcome
    have houtcome : outcome = (.ok inserted, ⟨made, inserted.target cursor.position⟩) := houtcome
    have opened := Code.opened_of_insertGap walk hposition hinserted
    rw [houtcome]
    refine ⟨?_, ?_, fun _ _ h => (by cases h)⟩
    · intro inserted next h
      cases h
      exact ⟨(Code.insertGap_cases hinserted).1, opened.starts_eq walk hposition, opened.gap,
        opened.instructions⟩
    · refine iff_of_false (fun ⟨e, next, h⟩ => by cases h) fun h => ?_
      obtain ⟨e, hfailed⟩ := hfails.mpr h
      cases hfailed.symm.trans hinserted

/-- A switch to the end of itself, followed by a jump back to it. -/
def switchLoop : Code where
  maxStack := 1
  maxLocals := 0
  bytes := #[0xaa, 0, 0, 0, 0, 0, 0, 20, 0, 0, 0, 7, 0, 0, 0, 7, 0, 0, 0, 20, 0xa7, 0xff, 0xec]
  handlers := []
  attributes := []

/-- An exclusive gap between the switch and the jump takes the targets of the
switch along, and the jump still reaches the switch. -/
theorem insertGap_relocates_switchLoop :
    (Bytecode.starts switchLoop.bytes = .ok [0, 20] ∧ 20 ∈ [0, 20] ∧ 0 < 1) ∧
      ∃ next, (insertGap 20 1 true).runOn (.ofCode switchLoop) = (.ok ⟨20, 4, true⟩, next) ∧
        Bytecode.starts next.code.bytes = .ok [0, 20, 21, 22, 23, 24] ∧
        Bytecode.branchTargets next.code.bytes 0 = [24, 24] ∧
        Bytecode.branchTargets next.code.bytes 24 = [0] := by
  have hstarts : Bytecode.starts switchLoop.bytes = .ok [0, 20] := by decide +kernel
  have hinserted : ((insertGap 20 1 true).runOn (.ofCode switchLoop)).1 =
      .ok ⟨20, 4, true⟩ := by decide +kernel
  have houtcome := Edit.runOn_eq_of_fst _ hinserted
  have h := (insertGap_relocates (.ofCode switchLoop) true hstarts (.inl (by decide))
    (by decide : 0 < 1)).1 _ _ houtcome
  refine ⟨⟨hstarts, by decide, by decide⟩, _, houtcome, ?_⟩
  exact ⟨h.2.1, (h.2.2.2 0 (by decide)).targets, (h.2.2.2 20 (by decide)).targets⟩

end Cursor

end JvmClass
