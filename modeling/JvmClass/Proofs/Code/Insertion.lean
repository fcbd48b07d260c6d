import JvmClass.Proofs.Code.Cursor
import JvmClass.Proofs.Code.GapInsertion
import JvmClass.Proofs.Instruction.Placement

/-!
# Inserted bytes

Bytes are inserted before an instruction by opening a gap there and writing them to
its front. What rounding adds to the gap does nothing, and all instructions are
relocated. If the bytes are complete instructions without a switch, the code before
the instruction can be walked up to it again.
-/

namespace JvmClass.Code

variable {code new : Code} {starts : List Nat} {position : Nat} {bytes : List UInt8}

/-- The shift of everything around bytes that are inserted before the instruction at
a position. -/
def insertion (position length : Nat) : Shift := ⟨position, gapLength length, false⟩

/-- A body after bytes were inserted before the instruction at a position. -/
structure Inserted (position : Nat) (bytes : List UInt8) (starts : List Nat) (old new : Code) :
    Prop where
  /-- It is longer by the gap. -/
  size : new.bytes.size = old.bytes.size + gapLength bytes.length
  /-- The bytes stand where the instruction was. -/
  placed : Bytecode.HasBytes new.bytes position bytes
  /-- What is left of the gap does nothing. -/
  padding : ∀ i < gapLength bytes.length - bytes.length,
    new.bytes[position + bytes.length + i]? = some Opcode.nop
  /-- The instructions are relocated. -/
  others : ∀ p ∈ starts,
    Bytecode.Relocated (insertion position bytes.length) old.bytes new.bytes p
  /-- The limits stay. -/
  limits : (new.maxStack, new.maxLocals) = (old.maxStack, old.maxLocals)

/-- Inserting bytes shifts everything around them. -/
theorem insertion_of_insertBytes {s : Shift} (h : code.insertBytes position bytes = .ok (s, new)) :
    s = insertion position bytes.length := by
  unfold insertBytes at h
  obtain ⟨⟨inserted, mid⟩, hinserted, h⟩ := bind_eq_ok_iff.mp h
  obtain ⟨written, -, h⟩ := bind_eq_ok_iff.mp h
  cases h
  exact (insertGap_cases hinserted).1

/-- Inserting bytes at a start of a body that can be walked. -/
theorem inserted_of_insertBytes (walk : Bytecode.Walk code.bytes 0 starts code.bytes.size)
    (hposition : position ∈ starts ∨ position = code.bytes.size) {s : Shift}
    (h : code.insertBytes position bytes = .ok (s, new)) :
    s = insertion position bytes.length ∧ code.Inserted position bytes starts new := by
  have hshift := insertion_of_insertBytes h
  unfold insertBytes at h
  obtain ⟨⟨inserted, mid⟩, hinserted, h⟩ := bind_eq_ok_iff.mp h
  obtain ⟨written, hwritten, h⟩ := bind_eq_ok_iff.mp h
  cases h
  have opened := opened_of_insertGap walk hposition hinserted
  subst hshift
  obtain ⟨hroom, rfl⟩ := write_eq_ok_iff.mp hwritten
  have hgap := (le_gapLength bytes.length).1
  have hroom : position + bytes.length ≤ mid.bytes.size := hroom
  refine ⟨rfl, ?_, ?_, ?_, fun p hp => ?_, opened.limits⟩
  · exact (Bytecode.size_overwrite ..).trans opened.size
  · exact fun i hi => Bytecode.getElem?_overwrite_of_inside hi hroom
  · intro i hi
    refine (Bytecode.getElem?_overwrite_of_outside (by show _ ∨ position + _ ≤ _; omega)).trans ?_
    exact opened.gap _ (by show position ≤ _; omega) (by show _ < position + gapLength _; omega)
  · obtain ⟨n, hl⟩ := walk.exists_length hp
    refine (opened.instructions p hp).congr hl (fun _ _ => rfl) fun i hi => ?_
    -- the instruction ends before the gap or starts behind it
    refine Bytecode.getElem?_overwrite_of_outside ?_
    show (insertion position bytes.length).start p + i < position ∨
      position + bytes.length ≤ (insertion position bytes.length).start p + i
    unfold Shift.start insertion
    dsimp only
    split
    · omega
    · next hbefore =>
      have hend := walk.add_length_le hp hl hposition (by omega)
      omega

namespace Inserted

variable (inserted : code.Inserted position bytes starts new)
include inserted

/-- The code before an instruction is walked up to it, over the inserted bytes and
the rest of the gap. -/
theorem exists_walk_before (hplain : Bytecode.IsPlain bytes) {passed : List Nat}
    (before : Bytecode.Walk code.bytes 0 passed position) (hpassed : ∀ p ∈ passed, p ∈ starts) :
    ∃ passed', Bytecode.Walk new.bytes 0 passed' (position + gapLength bytes.length) := by
  have hgap := (le_gapLength bytes.length).1
  have hfront := before.before_gap (s := insertion position bytes.length) fun p hp =>
    inserted.others p (hpassed p hp)
  obtain ⟨placed, hplaced⟩ := hplain.exists_walk inserted.placed
  have hpadding := Bytecode.Walk.nops inserted.padding
  have hend : position + bytes.length + (gapLength bytes.length - bytes.length) =
      position + gapLength bytes.length := by omega
  rw [hend] at hpadding
  exact ⟨_, (hfront.trans hplaced).trans hpadding⟩

/-- An instruction behind the bytes is moved by the gap. -/
theorem moved {p : Nat} (hp : p ∈ starts) (hbehind : position ≤ p) :
    ∃ route, Bytecode.Moved route code.bytes new.bytes p (p + gapLength bytes.length) := by
  have hmoved := (inserted.others p hp).moved (gapLength_mod_four bytes.length)
  have hstart : (insertion position bytes.length).start p = p + gapLength bytes.length :=
    if_pos hbehind
  rw [hstart] at hmoved
  exact ⟨_, hmoved⟩

end Inserted

end JvmClass.Code
