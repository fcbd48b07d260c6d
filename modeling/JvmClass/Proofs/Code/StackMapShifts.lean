import JvmClass.Proofs.Attribute.Copying
import JvmClass.Proofs.Code.Readable

/-!
# Stack maps after any number of shifts

The positions of frames are in strict order, because a frame holds its distance
to the frame before less one, and a shift keeps their order. So a distance never
comes out below zero. If the new positions fit 16 bits, the shifted frames are
where the shift puts them, and they say the same but for the places of objects
not yet initialized. A frame that has moved too far for its form takes another
one, so the table is read back as it was written. All of this is kept from shift
to shift.
-/

namespace JvmClass

/-! ## Types -/

namespace VerificationType

/-- The position of the instruction that created the object of a type, if the
type names one. -/
def created : VerificationType → List Nat
  | .uninitialized position => [position.toNat]
  | _ => []

/-- A type stays the same, except that the instruction that created an object has
gone where the shift puts it. -/
def ShiftedTo (s : Shift) : VerificationType → VerificationType → Prop
  | .uninitialized old, new =>
    ∃ position, new = .uninitialized position ∧ position.toNat = s.start old.toNat
  | old, new => new = old

variable {s : Shift}

/-- A type is shifted if the new position fits 16 bits. -/
theorem shiftedTo_shift {type : VerificationType} (h : ∀ p ∈ type.created, s.start p ≤ 65535) :
    ShiftedTo s type (type.shift s) := by
  cases type with
  | uninitialized position =>
    have hfits : s.start position.toNat ≤ 65535 := h _ List.mem_cons_self
    refine ⟨_, rfl, ?_⟩
    rw [UInt16.toNat_ofNat']
    omega
  | _ => rfl

/-- Types are shifted one by one if their new positions fit 16 bits. -/
theorem forall₂_shiftedTo {types : List VerificationType}
    (h : ∀ p ∈ types.flatMap created, s.start p ≤ 65535) :
    List.Forall₂ (ShiftedTo s) types (types.map (shift s)) := by
  refine List.forall₂_map_right_iff.mpr (List.forall₂_same.mpr fun type htype => ?_)
  exact shiftedTo_shift fun p hp => h p (List.mem_flatMap.mpr ⟨type, htype, hp⟩)

/-- Any types can be written. -/
theorem exists_encodeAll (types : List VerificationType) :
    ∃ bytes, Codec.encodeAll codec.encode types = .ok bytes := by
  refine Codec.exists_encodeAll fun type _ => ?_
  cases type <;> exact ⟨_, rfl⟩

end VerificationType

/-! ## Frames -/

namespace StackFrame

variable {s : Shift} {frame : StackFrame}

/-- The positions of the instructions that created the objects of a frame. -/
def created (frame : StackFrame) : List Nat :=
  (frame.content.locals ++ frame.content.operands).flatMap VerificationType.created

/-- The types of a frame can be counted, where a frame counts them. -/
def Countable (frame : StackFrame) : Prop :=
  frame.content.gone = none →
    frame.content.locals.length ≤ 65535 ∧ frame.content.operands.length ≤ 65535

/-- A frame can be written exactly if its types can be counted. -/
theorem exists_encode_iff : (∃ bytes, frame.encode = .ok bytes) ↔ frame.Countable := by
  cases frame with
  | same delta | sameExtended delta | chop delta count =>
    exact iff_of_true ⟨_, rfl⟩ fun h => by cases h
  | oneOperand delta operand | oneOperandExtended delta operand =>
    refine iff_of_true ?_ fun h => by cases h
    cases operand <;> exact ⟨_, rfl⟩
  | append delta locals =>
    refine iff_of_true ?_ fun h => by cases h
    obtain ⟨bytes, hbytes⟩ := VerificationType.exists_encodeAll locals
    exact ⟨_, bind_eq_ok_iff.mpr ⟨bytes, hbytes, rfl⟩⟩
  | full delta locals operands =>
    constructor
    · rintro ⟨bytes, h⟩ -
      obtain ⟨start, hstart, h⟩ := bind_eq_ok_iff.mp h
      obtain ⟨stop, hstop, h⟩ := bind_eq_ok_iff.mp h
      obtain ⟨-, hlocals, -⟩ := Codec.encode_counted_eq_ok_iff.mp hstart
      obtain ⟨-, hoperands, -⟩ := Codec.encode_counted_eq_ok_iff.mp hstop
      exact ⟨hlocals, hoperands⟩
    · intro h
      obtain ⟨hlocals, hoperands⟩ := h rfl
      obtain ⟨start, hstart⟩ := VerificationType.exists_encodeAll locals
      obtain ⟨stop, hstop⟩ := VerificationType.exists_encodeAll operands
      refine ⟨_, bind_eq_ok_iff.mpr ⟨_, Codec.encode_counted_eq_ok_iff.mpr
        ⟨start, hlocals, hstart, rfl⟩, bind_eq_ok_iff.mpr ⟨_, Codec.encode_counted_eq_ok_iff.mpr
        ⟨stop, hoperands, hstop, rfl⟩, rfl⟩⟩⟩

end StackFrame

/-! ## Positions -/

namespace StackMap

variable {s : Shift} {frames : StackMap}

/-- The positions of frames are in strict order, behind the position before
them. -/
theorem pairwise_offsetsFrom (before : Option Nat) (frames : StackMap) :
    (∀ q ∈ before, ∀ p ∈ offsetsFrom before frames, q < p) ∧
      (offsetsFrom before frames).Pairwise (· < ·) := by
  induction frames generalizing before with
  | nil => exact ⟨fun _ _ _ hp => (by cases hp), List.Pairwise.nil⟩
  | cons frame frames ih =>
    obtain ⟨hbehind, hordered⟩ := ih (some (offsetAfter before frame.delta))
    have hfirst := hbehind _ rfl
    refine ⟨?_, .cons hfirst hordered⟩
    rintro q rfl p hp
    have hnext : q < offsetAfter (some q) frame.delta := Nat.lt_succ_of_le (Nat.le_add_right ..)
    rcases List.mem_cons.mp hp with rfl | hp
    · exact hnext
    · exact Nat.lt_trans hnext (hfirst p hp)

/-- The positions of frames are in strict order. -/
theorem pairwise_offsets (frames : StackMap) : (offsets frames).Pairwise (· < ·) := by
  rw [offsets_eq]
  exact (pairwise_offsetsFrom none frames).2

/-- The distance of a position from the one before it, less one, unless this is
below zero. -/
def distance? (before : Option Nat) (position : Nat) : Option Nat :=
  match before with
  | none => some position
  | some previous => if previous + 1 ≤ position then some (position - previous - 1) else none

/-- The frames after bytes are inserted, given the position before them as it
was and as it is now, unless some distance is below zero. -/
def shiftFrom? (s : Shift) (old new : Option Nat) : StackMap → Option StackMap
  | [] => some []
  | frame :: frames => do
    let offset := offsetAfter old frame.delta
    let distance ← distance? new (s.target offset)
    let frames ← shiftFrom? s (some offset) (some (s.target offset)) frames
    pure ((frame.withDelta (UInt16.ofNat distance)).mapTypes (VerificationType.shift s) :: frames)

/-- The stack map after bytes are inserted, unless some distance is below zero. -/
def shift? (s : Shift) (frames : StackMap) : Option StackMap := shiftFrom? s none none frames

/-- No distance to a later position is below zero. -/
theorem distance?_eq {before : Option Nat} {position : Nat} (h : ∀ p ∈ before, p < position) :
    distance? before position = some (distance before position) := by
  cases before with
  | none => rfl
  | some previous => exact if_pos (h previous rfl)

/-- A frame holds what fits of a distance. -/
theorem deltaAfter_eq (before : Option Nat) (position : Nat) :
    deltaAfter before position = UInt16.ofNat (distance before position) := by
  cases before <;> rfl

/-- No distance between shifted frames is below zero. -/
theorem shiftFrom?_eq (before : Option Nat) (frames : StackMap) :
    shiftFrom? s before (before.map s.target) frames =
      some (shiftFrom s before (before.map s.target) frames) := by
  induction frames generalizing before with
  | nil => rfl
  | cons frame frames ih =>
    have hdistance : distance? (before.map s.target)
        (s.target (offsetAfter before frame.delta)) = some _ := distance?_eq target_lt_of_mem_before
    have hrest := ih (some (offsetAfter before frame.delta))
    rw [Option.map_some] at hrest
    simp only [shiftFrom?, shiftFrom, hdistance, hrest, deltaAfter_eq]
    rfl

/-- No distance in a shifted stack map is below zero. -/
theorem shift?_eq (s : Shift) (frames : StackMap) : shift? s frames = some (shift s frames) := by
  rw [shift_eq]
  exact shiftFrom?_eq none frames

/-! ## Shifts in a row -/

/-- The positions of the instructions that created the objects of a stack map. -/
def created (frames : StackMap) : List Nat := frames.flatMap StackFrame.created

/-- Whether the new positions of the last frame and of the instructions that
created objects fit 16 bits. -/
structure Admits (s : Shift) (frames : StackMap) : Prop where
  /-- The last frame does not go too far. -/
  last : ∀ p ∈ (offsets frames).getLast?, s.target p ≤ 65535
  /-- No instruction that created an object goes too far. -/
  created : ∀ p ∈ frames.created, s.start p ≤ 65535

/-- The stack maps that are read, and those that come from them by shifts that
they admit. -/
inductive Reached : StackMap → Prop where
  /-- A stack map that is read. -/
  | read {bytes rest : List UInt8} {frames : StackMap}
      (h : codec.decode bytes = .ok (frames, rest)) : Reached frames
  /-- One more shift. -/
  | shift {frames : StackMap} (reached : Reached frames) (s : Shift) (admits : Admits s frames) :
      Reached (shift s frames)

/-- A stack map that can be written and fits its forms. -/
structure WellFormed (frames : StackMap) : Prop where
  /-- The frames can be counted. -/
  count : List.length frames ≤ 65535
  /-- The types can be counted. -/
  countable : ∀ frame ∈ frames, frame.Countable
  /-- Each frame is in a form that can hold its distance. -/
  fitsForm : ∀ frame ∈ frames, frame.FitsForm

/-- A stack map that is read is well-formed. -/
theorem wellFormed_of_decode {bytes rest : List UInt8}
    (h : codec.decode bytes = .ok (frames, rest)) : WellFormed frames := by
  obtain ⟨written, hwritten, -⟩ := writesBack bytes frames rest h
  obtain ⟨entries, hlength, hentries, -⟩ := Codec.encode_counted_eq_ok_iff.mp hwritten
  refine ⟨hlength, fun frame hframe => ?_, fitsForm_of_decode h⟩
  obtain ⟨part, hpart, -⟩ := Codec.length_le_of_mem hentries hframe
  exact StackFrame.exists_encode_iff.mp ⟨part, hpart⟩

/-- The frames of a shifted stack map say as much as those of the old one, each
about shifted types. -/
theorem exists_content_of_mem_shiftFrom {old new : Option Nat} {frame : StackFrame}
    (h : frame ∈ shiftFrom s old new frames) :
    ∃ before ∈ frames, frame.content =
      ⟨before.content.gone, before.content.locals.map (VerificationType.shift s),
        before.content.operands.map (VerificationType.shift s)⟩ := by
  induction frames generalizing old new with
  | nil => cases h
  | cons first frames ih =>
    rcases List.mem_cons.mp h with rfl | h
    · exact ⟨first, List.mem_cons_self, by simp⟩
    · obtain ⟨before, hbefore, hcontent⟩ := ih h
      exact ⟨before, List.mem_cons_of_mem _ hbefore, hcontent⟩

/-- A shifted stack map has as many frames. -/
theorem length_shiftFrom (old new : Option Nat) (frames : StackMap) :
    List.length (shiftFrom s old new frames) = List.length frames := by
  induction frames generalizing old new with
  | nil => rfl
  | cons frame frames ih => exact congrArg (· + 1) (ih _ _)

/-- A shifted stack map is well-formed. -/
theorem WellFormed.shift (h : WellFormed frames) (s : Shift) : WellFormed (shift s frames) := by
  refine ⟨?_, fun frame hframe => ?_, fitsForm_shift s h.fitsForm⟩
  · rw [shift_eq, length_shiftFrom]
    exact h.count
  · rw [shift_eq] at hframe
    obtain ⟨before, hbefore, hcontent⟩ := exists_content_of_mem_shiftFrom hframe
    have hcountable := h.countable before hbefore
    unfold StackFrame.Countable
    rw [hcontent, List.length_map, List.length_map]
    exact hcountable

/-- A well-formed stack map is written, and read back as it was. -/
theorem WellFormed.exists_encode (h : WellFormed frames) :
    ∃ bytes, codec.encode frames = .ok bytes ∧
      ∀ rest, codec.decode (bytes ++ rest) = .ok (frames, rest) := by
  have hframes : ∀ frame ∈ frames, ∃ bytes, StackFrame.codec.encode frame = .ok bytes :=
    fun frame hframe => StackFrame.exists_encode_iff.mpr (h.countable frame hframe)
  obtain ⟨entries, hentries⟩ := Codec.exists_encodeAll hframes
  have hbytes : codec.encode frames = .ok _ :=
    Codec.encode_counted_eq_ok_iff.mpr ⟨entries, h.count, hentries, rfl⟩
  exact ⟨_, hbytes, readsBack h.fitsForm _ hbytes⟩

/-- All stack maps that are reached are well-formed. -/
theorem Reached.wellFormed (reached : Reached frames) : WellFormed frames := by
  induction reached with
  | read h => exact wellFormed_of_decode h
  | shift reached s admits ih => exact ih.shift s

/-- If the last frame does not go too far, no frame does. -/
theorem Admits.target_le (admits : Admits s frames) :
    ∀ p ∈ offsets frames, s.target p ≤ 65535 := by
  intro p hp
  cases hlast : (offsets frames).getLast? with
  | none =>
    rw [List.getLast?_eq_none_iff.mp hlast] at hp
    cases hp
  | some last =>
    have hfits := admits.last last hlast
    obtain ⟨others, hothers⟩ := List.getLast?_eq_some_iff.mp hlast
    have hordered := pairwise_offsets frames
    rw [hothers] at hp hordered
    rcases List.mem_append.mp hp with hp | hp
    · have hlt := (List.pairwise_append.mp hordered).2.2 p hp last List.mem_cons_self
      exact Nat.le_trans (Nat.le_of_lt (s.target_lt_target hlt)) hfits
    · cases List.mem_singleton.mp hp
      exact hfits

/-- A stack map after a shift, as it has to be. -/
structure ShiftedTo (s : Shift) (old new : StackMap) : Prop where
  /-- No distance comes out below zero when it is computed. -/
  checked : shift? s old = some new
  /-- The frames are where the shift puts them. -/
  offsets : StackMap.offsets new = (StackMap.offsets old).map s.target
  /-- The frames are in strict order. -/
  ordered : (StackMap.offsets new).Pairwise (· < ·)
  /-- The frames say the same of shifted types. -/
  contents : List.Forall₂ (fun frame frame' =>
    StackFrame.Content.Matches (VerificationType.ShiftedTo s) frame.content frame'.content) old new
  /-- Each frame is in a form that can hold its distance. -/
  fitsForm : ∀ frame ∈ new, frame.FitsForm
  /-- The table is written, and read back as it was. -/
  readBack : ∃ bytes, codec.encode new = .ok bytes ∧
    ∀ rest, codec.decode (bytes ++ rest) = .ok (new, rest)

/-- The frames of a shifted stack map say the same of shifted types. -/
theorem contents_shiftFrom (hcreated : ∀ p ∈ frames.created, s.start p ≤ 65535)
    (old new : Option Nat) :
    List.Forall₂ (fun frame frame' => StackFrame.Content.Matches (VerificationType.ShiftedTo s)
      frame.content frame'.content) frames (shiftFrom s old new frames) := by
  induction frames generalizing old new with
  | nil => exact .nil
  | cons frame frames ih =>
    refine .cons ?_ (ih (fun p hp => hcreated p ?_) _ _)
    · have hfirst : ∀ p ∈ frame.created, s.start p ≤ 65535 := fun p hp =>
        hcreated p (List.mem_flatMap.mpr ⟨frame, List.mem_cons_self, hp⟩)
      unfold StackFrame.created at hfirst
      rw [List.flatMap_append] at hfirst
      rw [StackFrame.content_mapTypes, StackFrame.content_withDelta]
      exact ⟨rfl,
        VerificationType.forall₂_shiftedTo fun p hp => hfirst p (List.mem_append_left _ hp),
        VerificationType.forall₂_shiftedTo fun p hp => hfirst p (List.mem_append_right _ hp)⟩
    · obtain ⟨other, hother, hp⟩ := List.mem_flatMap.mp hp
      exact List.mem_flatMap.mpr ⟨other, List.mem_cons_of_mem _ hother, hp⟩

/-- However many shifts a stack map has gone through since it was read, one more
that it admits computes no distance below zero, puts every frame where the shift
puts its position, keeps the frames in strict order and what they say, up to the
places of objects not yet initialized, and leaves a table that is read back as
it is written. -/
theorem Reached.shiftedTo (reached : Reached frames) (admits : Admits s frames) :
    ShiftedTo s frames (StackMap.shift s frames) := by
  have hwell := reached.wellFormed.shift s
  refine ⟨shift?_eq s frames, ?_, pairwise_offsets _, ?_, hwell.fitsForm, hwell.exists_encode⟩
  · have hfollows : Follows s [] frames (StackMap.shift s frames) :=
      follows_shift (fun p hp => by cases hp) admits.target_le
    exact hfollows.offsets
  · rw [shift_eq]
    exact contents_shiftFrom admits.created none none

/-- A stack map with frames at 2, 63 and 80, of which the last one has an object on
the stack that was created at 60. -/
def freshObject : StackMap := [.same 2, .same 60, .full 16 [] [.uninitialized 60]]

/-- A gap in front of the object takes the second frame out of its form. A second
gap, which references to 71 skip, takes this frame along but not the object. -/
theorem Reached.shiftedTo_freshObject :
    (Reached freshObject ∧ Admits ⟨10, 8, false⟩ freshObject ∧
        Admits ⟨71, 4, true⟩ (StackMap.shift ⟨10, 8, false⟩ freshObject)) ∧
      ShiftedTo ⟨71, 4, true⟩ (StackMap.shift ⟨10, 8, false⟩ freshObject)
        [.same 2, .sameExtended 72, .full 16 [] [.uninitialized 68]] := by
  have hread : codec.decode [0, 3, 2, 60, 255, 0, 16, 0, 0, 0, 1, 8, 0, 60] =
      .ok (freshObject, []) := by decide +kernel
  have hfirst : Admits ⟨10, 8, false⟩ freshObject := ⟨by decide, by decide⟩
  have hsecond : Admits ⟨71, 4, true⟩ (StackMap.shift ⟨10, 8, false⟩ freshObject) :=
    ⟨by decide, by decide⟩
  have reached : Reached freshObject := .read hread
  exact ⟨⟨reached, hfirst, hsecond⟩, (reached.shift _ hfirst).shiftedTo hsecond⟩

end StackMap

end JvmClass
