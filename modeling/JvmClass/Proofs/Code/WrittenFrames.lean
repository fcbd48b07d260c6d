import JvmClass.Proofs.Code.StackMapShifts

/-!
# What is written of a frame

The first byte of a frame holds its form, and in some forms its distance or the
number of its locals as well. Writing puts there what is left of them in a byte and
checks nothing, so that a frame is refused only if one of its tables is too long to
be counted. It is read back exactly if its form can hold it; any other frame is
written as bytes that mean something else.
-/

namespace JvmClass.StackFrame

/-- A frame can be represented: its form can hold it, and its tables can be
counted. -/
structure Representable (frame : StackFrame) : Prop where
  /-- The form can hold the contents. -/
  fitsForm : frame.FitsForm
  /-- The tables can be counted. -/
  countable : frame.Countable

/-- A frame is never written as a different one. -/
structure WrittenFaithfully (frame : StackFrame) : Prop where
  /-- What is written is read as the frame, up to the last byte. -/
  readBack : ∀ bytes, frame.encode = .ok bytes → decode bytes = .ok (frame, [])
  /-- A frame that cannot be represented is refused. -/
  refused : ¬ frame.Representable → ∃ e, frame.encode = .error e

/-- The tables of a frame that its form cannot hold can always be counted: only frames
of a form that holds everything have tables. -/
theorem countable_of_not_fitsForm {frame : StackFrame} (h : ¬ frame.FitsForm) :
    frame.Countable := by
  cases frame with
  | full => exact absurd trivial h
  | _ => exact fun hgone => by cases hgone

/-- A frame that cannot be counted is refused. -/
theorem exists_error_of_not_countable {frame : StackFrame} (h : ¬ frame.Countable) :
    ∃ e, frame.encode = .error e := by
  cases hencode : frame.encode with
  | error e => exact ⟨e, rfl⟩
  | ok bytes => exact absurd (exists_encode_iff.mp ⟨bytes, hencode⟩) h

/-- **A frame is written faithfully exactly if its form can hold it.** It is refused
exactly if one of its tables cannot be counted. So a frame that its form cannot hold is
written nevertheless, and its bytes are never read as this frame, whatever follows
them. -/
theorem writtenFaithfully_iff_fitsForm (frame : StackFrame) :
    ((∃ bytes, frame.encode = .ok bytes) ↔ frame.Countable) ∧
      (frame.WrittenFaithfully ↔ frame.FitsForm) ∧
      (¬ frame.FitsForm → ∃ bytes, frame.encode = .ok bytes ∧
        ∀ rest left, decode (bytes ++ rest) ≠ .ok (frame, left)) := by
  have hmisfit : ¬ frame.FitsForm → ∃ bytes, frame.encode = .ok bytes ∧
      ∀ rest left, decode (bytes ++ rest) ≠ .ok (frame, left) := by
    intro hfits
    obtain ⟨bytes, hbytes⟩ := exists_encode_iff.mpr (countable_of_not_fitsForm hfits)
    exact ⟨bytes, hbytes, fun rest left hread => hfits (encode_of_decode hread).1⟩
  refine ⟨exists_encode_iff, ⟨fun faithful => ?_, fun hfits => ⟨?_, ?_⟩⟩, hmisfit⟩
  · by_contra hfits
    obtain ⟨bytes, hbytes, hnever⟩ := hmisfit hfits
    have hread := faithful.readBack bytes hbytes
    rw [← List.append_nil bytes] at hread
    exact hnever [] [] hread
  · intro bytes hbytes
    have hread : decode (bytes ++ []) = .ok (frame, []) := readsBack hfits bytes hbytes []
    rwa [List.append_nil] at hread
  · exact fun hnot => exists_error_of_not_countable fun hcountable => hnot ⟨hfits, hcountable⟩

/-- A frame without contents at a distance of 256 is written as one at a distance of
zero. -/
theorem same_not_writtenFaithfully :
    (StackFrame.same 256).encode = .ok [0] ∧ decode [0] = .ok (.same 0, []) ∧
      ¬ (StackFrame.same 256).WrittenFaithfully := by
  have hwritten : (StackFrame.same 256).encode = .ok [0] := rfl
  have hread : decode [0] = .ok (.same 0, []) := rfl
  refine ⟨hwritten, hread, fun faithful => ?_⟩
  have hsame := (faithful.readBack [0] hwritten).symm.trans hread
  exact absurd hsame (by decide)

end JvmClass.StackFrame
