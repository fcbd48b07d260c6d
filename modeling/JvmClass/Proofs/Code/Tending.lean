import JvmClass.Proofs.Code.Insertion

/-!
# Tended instructions

What may be done to a body while a cursor stands behind one of its instructions:
complete instructions are inserted in front of it, any number of times, and its
operands are overwritten. All that is added lies before the instruction, so that it
and everything behind it are found at the same distance from the end of the code,
and the cursor stays behind the instruction.
-/

namespace JvmClass

/-! ## Bodies that are overwritten -/

/-- A body after bytes between two positions were overwritten. -/
structure Code.Overwritten (start stop : Nat) (old new : Code) : Prop where
  /-- It is as long as it was. -/
  size : new.bytes.size = old.bytes.size
  /-- All other bytes are the same. -/
  outside : ∀ i, i < start ∨ stop ≤ i → new.bytes[i]? = old.bytes[i]?
  /-- The limits stay. -/
  limits : (new.maxStack, new.maxLocals) = (old.maxStack, old.maxLocals)

namespace Cursor

/-- Several writes through a cursor, each with its position. -/
def writeAll (writes : List (Nat × List UInt8)) : Edit Cursor Unit :=
  writes.forM fun (position, bytes) => write position bytes

/-- Bytes are inserted at the position that is asked for. -/
theorem place_of_insertBytes {position place : Nat} {bytes : List UInt8} {cursor next : Cursor}
    (h : (insertBytes position bytes).runOn cursor = (.ok place, next)) : place = position := by
  obtain ⟨s, new, hcode, rfl, -⟩ := insertBytes_of_runOn h
  rw [Code.insertion_of_insertBytes hcode]
  rfl

/-- Writes between two positions overwrite what is there, and leave the cursor where
it is. -/
theorem overwritten_of_writeAll {writes : List (Nat × List UInt8)} {start stop : Nat}
    {cursor next : Cursor}
    (hinside : ∀ w ∈ writes, start ≤ w.1 ∧ w.1 + w.2.length ≤ stop)
    (h : (writeAll writes).runOn cursor = (.ok (), next)) :
    next.position = cursor.position ∧ cursor.code.Overwritten start stop next.code := by
  unfold writeAll at h
  induction writes generalizing cursor with
  | nil =>
    cases h
    exact ⟨rfl, rfl, fun _ _ => rfl, rfl⟩
  | cons w writes ih =>
    obtain ⟨⟨⟩, mid, hwrite, hlater⟩ := (Edit.runOn_bind_eq_ok_iff cursor).mp h
    obtain ⟨-, rfl⟩ := runOn_write_eq_ok_iff.mp hwrite
    obtain ⟨hposition, hrest⟩ := ih (fun v hv => hinside v (List.mem_cons_of_mem w hv)) hlater
    have hw := hinside w List.mem_cons_self
    refine ⟨hposition, hrest.size.trans (Bytecode.size_overwrite ..), fun i hi => ?_,
      hrest.limits⟩
    exact (hrest.outside i hi).trans (Bytecode.getElem?_overwrite_of_outside (by omega))

end Cursor

/-! ## Instructions behind the edits -/

section Stretched

variable {old : Bytecode} {mid new : Code} {grown first : Nat} {pending : List Nat}

/-- Code grows by what is inserted before its instructions. -/
theorem Code.Inserted.stretched {position : Nat} {bytes : List UInt8} {starts : List Nat}
    (inserted : mid.Inserted position bytes starts new)
    (stretched : old.Stretched grown first pending mid.bytes) (hfirst : position ≤ first + grown)
    (hstarts : ∀ p ∈ pending, p + grown ∈ starts) :
    old.Stretched (grown + gapLength bytes.length) first pending new.bytes := by
  refine stretched.grow _ inserted.size fun p hp => ?_
  have hbegin := (stretched.walk.mem_bounds hp).1
  exact inserted.moved (hstarts p hp) (by omega)

/-- Overwriting bytes before instructions does not touch them. -/
theorem Code.Overwritten.stretched {start stop : Nat} (overwritten : mid.Overwritten start stop new)
    (stretched : old.Stretched grown first pending mid.bytes) (hstop : stop ≤ first + grown) :
    old.Stretched grown first pending new.bytes := by
  refine stretched.grow 0 overwritten.size fun p hp => ?_
  have hbegin := (stretched.walk.mem_bounds hp).1
  obtain ⟨_, hmoved⟩ := stretched.moved p hp
  obtain ⟨n, -, hl⟩ := hmoved.length
  exact ⟨id, Bytecode.moved_of_bytes hl fun i _ => overwritten.outside _ (.inr (by omega))⟩

end Stretched

namespace Cursor

/-! ## Edits around an instruction -/

/-- A cursor stands right behind the instruction at a position of a body that can be
walked. -/
def IsAt (cursor : Cursor) (position : Nat) : Prop :=
  ∃ starts length, Bytecode.starts cursor.code.bytes = .ok starts ∧ position ∈ starts ∧
    Bytecode.instructionLength cursor.code.bytes position = .ok length ∧
    cursor.position = position + length

/-- The instruction at a position is tended: complete instructions other than
switches are inserted before it, and operands of it are overwritten so that it keeps
its length. The second position is the one to which it has moved in the end. -/
inductive Tended : Nat → Cursor → Nat → Cursor → Prop where
  /-- No more is done. -/
  | done (position : Nat) (cursor : Cursor) : Tended position cursor position cursor
  /-- Bytes are inserted. Then the instruction stands behind the gap. -/
  | insert {position place final : Nat} {bytes : List UInt8} {cursor mid last : Cursor}
      (hplain : Bytecode.IsPlain bytes)
      (h : (insertBytes position bytes).runOn cursor = (.ok place, mid))
      (later : Tended (position + Code.gapLength bytes.length) mid final last) :
      Tended position cursor final last
  /-- Operands are overwritten, by one write or several. -/
  | overwrite {position length final : Nat} {writes : List (Nat × List UInt8)}
      {cursor mid last : Cursor}
      (hl : Bytecode.instructionLength cursor.code.bytes position = .ok length)
      (hinside : ∀ w ∈ writes, position + 1 ≤ w.1 ∧ w.1 + w.2.length ≤ position + length)
      (h : (writeAll writes).runOn cursor = (.ok (), mid))
      (hl' : Bytecode.instructionLength mid.code.bytes position = .ok length)
      (later : Tended position mid final last) :
      Tended position cursor final last

/-! ## What tending keeps -/

/-- A cursor stands behind an instruction of a body that has grown. The instruction
was at `p` in the old body and has length `n`; all behind it has moved along. -/
structure Holds (code : Code) (grown p n : Nat) (rest : List Nat) (cursor : Cursor) : Prop where
  /-- The instructions behind it have moved. -/
  stretched : Bytecode.Stretched grown (p + n) rest code.bytes cursor.code.bytes
  /-- All before it can be walked. -/
  passed : ∃ passed, Bytecode.Walk cursor.code.bytes 0 passed (p + grown)
  /-- It has its length. -/
  length : Bytecode.instructionLength cursor.code.bytes (p + grown) = .ok n
  /-- It has its opcode. -/
  opcode : cursor.code.bytes[p + grown]? = code.bytes[p]?
  /-- The cursor stands behind it. -/
  position : cursor.position = p + n + grown
  /-- The limits stay. -/
  limits : (cursor.code.maxStack, cursor.code.maxLocals) = (code.maxStack, code.maxLocals)

namespace Holds

variable {code : Code} {grown p n : Nat} {rest : List Nat} {cursor next : Cursor}

/-- The body can be walked, and the instruction and all behind it are on the walk. -/
theorem exists_walk (holds : Holds code grown p n rest cursor) :
    ∃ passed, Bytecode.Walk cursor.code.bytes 0 passed (p + grown) ∧
      Bytecode.Walk cursor.code.bytes 0 (passed ++ (p + grown) :: rest.map (· + grown))
        cursor.code.bytes.size := by
  obtain ⟨passed, hpassed⟩ := holds.passed
  have hrest := holds.stretched.walk_pending
  rw [Nat.add_right_comm] at hrest
  exact ⟨passed, hpassed, hpassed.trans (.step holds.length hrest)⟩

/-- The cursor is at the instruction. -/
theorem isAt (holds : Holds code grown p n rest cursor) : cursor.IsAt (p + grown) := by
  obtain ⟨passed, -, hwalk⟩ := holds.exists_walk
  refine ⟨_, n, Bytecode.starts_eq_ok_iff.mpr hwalk, ?_, holds.length, ?_⟩
  · exact List.mem_append_right _ List.mem_cons_self
  · rw [holds.position, Nat.add_right_comm]

/-- Instructions are inserted before the instruction. -/
theorem insert (holds : Holds code grown p n rest cursor) {bytes : List UInt8} {place : Nat}
    (hplain : Bytecode.IsPlain bytes)
    (h : (insertBytes (p + grown) bytes).runOn cursor = (.ok place, next)) :
    Holds code (grown + Code.gapLength bytes.length) p n rest next := by
  obtain ⟨s, new, hcode, -, rfl⟩ := insertBytes_of_runOn h
  obtain ⟨passed, hpassed, hwalk⟩ := holds.exists_walk
  have hmem : p + grown ∈ passed ++ (p + grown) :: rest.map (· + grown) :=
    List.mem_append_right _ List.mem_cons_self
  obtain ⟨rfl, hinserted⟩ := Code.inserted_of_insertBytes hwalk (.inl hmem) hcode
  have hone := Bytecode.one_le_instructionLength holds.length
  obtain ⟨route, hmoved⟩ := hinserted.moved hmem (Nat.le_refl _)
  obtain ⟨m, hl, hl'⟩ := hmoved.length
  cases holds.length.symm.trans hl
  refine ⟨?_, ?_, ?_, ?_, ?_, hinserted.limits.trans holds.limits⟩
  · refine hinserted.stretched holds.stretched (by omega) fun q hq => ?_
    exact List.mem_append_right _ (List.mem_cons_of_mem _ (List.mem_map_of_mem hq))
  · rw [← Nat.add_assoc]
    exact hinserted.exists_walk_before hplain hpassed fun q hq => List.mem_append_left _ hq
  · rw [← Nat.add_assoc]
    exact hl'
  · rw [← Nat.add_assoc, ← holds.opcode]
    exact hmoved.opcode_eq
  · show (Code.insertion (p + grown) bytes.length).target cursor.position = _
    rw [holds.position]
    unfold Shift.target Shift.moves Code.insertion
    dsimp only
    rw [if_pos (by simp; omega), Nat.add_assoc]

/-- Operands of the instruction are overwritten. -/
theorem overwrite (holds : Holds code grown p n rest cursor) {writes : List (Nat × List UInt8)}
    (hinside : ∀ w ∈ writes, p + grown + 1 ≤ w.1 ∧ w.1 + w.2.length ≤ p + grown + n)
    (h : (writeAll writes).runOn cursor = (.ok (), next))
    (hl : Bytecode.instructionLength next.code.bytes (p + grown) = .ok n) :
    Holds code grown p n rest next := by
  obtain ⟨hposition, overwritten⟩ := overwritten_of_writeAll hinside h
  obtain ⟨passed, hpassed⟩ := holds.passed
  refine ⟨overwritten.stretched holds.stretched (by omega), ⟨passed, ?_⟩, hl, ?_,
    hposition.trans holds.position, overwritten.limits.trans holds.limits⟩
  · exact hpassed.of_bytes fun i _ hi => overwritten.outside i (.inl (by omega))
  · exact (overwritten.outside _ (.inl (Nat.lt_succ_self _))).trans holds.opcode

end Holds

/-! ## From one instruction to the next -/

/-- A cursor stands before the instructions of a body that has grown. The first of
them was at `first` in the old body. -/
structure Awaits (code : Code) (grown first : Nat) (pending : List Nat) (cursor : Cursor) :
    Prop where
  /-- The instructions have moved. -/
  stretched : Bytecode.Stretched grown first pending code.bytes cursor.code.bytes
  /-- All before them can be walked. -/
  passed : ∃ passed, Bytecode.Walk cursor.code.bytes 0 passed (first + grown)
  /-- The cursor stands before them. -/
  position : cursor.position = first + grown
  /-- The limits stay. -/
  limits : (cursor.code.maxStack, cursor.code.maxLocals) = (code.maxStack, code.maxLocals)

/-- A cursor at the start of a body awaits all its instructions. -/
theorem awaits_ofCode {code : Code} {starts : List Nat}
    (walk : Bytecode.Walk code.bytes 0 starts code.bytes.size) :
    Awaits code 0 0 starts (.ofCode code) :=
  ⟨.refl walk, ⟨[], .stop _⟩, rfl, rfl⟩

section Awaits

variable {code : Code} {grown first p n : Nat} {rest : List Nat} {cursor : Cursor}

/-- A cursor that awaits no instruction is at the end. -/
theorem Awaits.hasNext_nil (awaits : Awaits code grown first [] cursor) :
    cursor.hasNext = false := by
  have hend := (awaits.stretched.walk_pending.last_unique (.stop _)).symm
  rw [← awaits.position] at hend
  exact decide_eq_false (by omega)

/-- A cursor that awaits an instruction can pass it. -/
theorem Awaits.next (awaits : Awaits code grown first (p :: rest) cursor) :
    cursor.hasNext = true ∧ ∃ length, Bytecode.instructionLength code.bytes p = .ok length ∧
      Cursor.next.runOn cursor =
        (.ok (p + grown), { cursor with position := cursor.position + length }) ∧
      Holds code grown p length rest { cursor with position := cursor.position + length } := by
  obtain ⟨rfl⟩ := awaits.stretched.walk.first_eq
  obtain ⟨route, hmoved⟩ := awaits.stretched.moved first List.mem_cons_self
  obtain ⟨length, hl, hl'⟩ := hmoved.length
  have hat := hl'
  rw [← awaits.position] at hat
  refine ⟨hasNext_of_instructionLength hat, length, hl, ?_, ?_⟩
  · rw [runOn_next, hat, awaits.position]
  · refine ⟨awaits.stretched.tail hl, awaits.passed, hl', hmoved.opcode_eq, ?_, awaits.limits⟩
    show cursor.position + length = _
    rw [awaits.position, Nat.add_right_comm]

/-- A cursor behind an instruction awaits those behind it. -/
theorem Holds.awaits (holds : Holds code grown p n rest cursor) :
    Awaits code grown (p + n) rest cursor := by
  obtain ⟨passed, hpassed⟩ := holds.passed
  have hwalk := hpassed.trans (.step holds.length (.stop _))
  rw [Nat.add_right_comm] at hwalk
  exact ⟨holds.stretched, ⟨_, hwalk⟩, holds.position, holds.limits⟩

end Awaits

/-- However an instruction is tended, the cursor stays behind it. -/
theorem Tended.holds {code : Code} {p n q final : Nat} {rest : List Nat} {cursor last : Cursor}
    (tended : Tended q cursor final last) :
    ∀ {grown}, q = p + grown → Holds code grown p n rest cursor →
      ∃ grown', final = p + grown' ∧ Holds code grown' p n rest last := by
  induction tended with
  | done => exact fun hq holds => ⟨_, hq, holds⟩
  | insert hplain h _ ih =>
    rintro grown rfl holds
    exact ih (Nat.add_assoc ..) (holds.insert hplain h)
  | overwrite hl hinside h hl' _ ih =>
    rintro grown rfl holds
    cases holds.length.symm.trans hl
    exact ih rfl (holds.overwrite hinside h hl')

end Cursor

end JvmClass
