import JvmClass.Proofs.Code.StackMapShifts
import JvmClass.Proofs.RelatedLists

/-!
# Positions that wrap around

The tables of a body hold numbers of 16 bits, and nothing relates them to the
length of the code when a body is read. A gap is inserted whatever they are: a
number that has to grow is reduced to 16 bits if it does not fit. So all
positions and lengths stay what they were, or grow by the gap, exactly if every
number that the tables need then fits.
-/

namespace JvmClass

namespace Shift

variable {s : Shift} {old new needed old' new' needed' : List Nat}

/-- A number stays, or it grows by the gap. -/
def Moved (s : Shift) (old new : Nat) : Prop := new = old ∨ new = old + s.gap

instance (s : Shift) (old new : Nat) : Decidable (s.Moved old new) :=
  inferInstanceAs (Decidable (_ ∨ _))

/-- A number that is reduced to 16 bits has stayed or grown by the gap exactly if
it fits. -/
theorem moved_mod_iff {a b : Nat} (hgap : s.gap ≤ 65535) (ha : a ≤ 65535) (h : s.Moved a b) :
    s.Moved a (b % 65536) ↔ b ≤ 65535 := by
  unfold Moved at h ⊢
  omega

/-- A reference stays or moves by the gap. -/
theorem moved_target (s : Shift) (t : Nat) : s.Moved t (s.target t) := by
  unfold Moved
  rw [s.target_eq]
  split <;> omega

/-- An instruction stays or moves by the gap. -/
theorem moved_start (s : Shift) (p : Nat) : s.Moved p (s.start p) := by
  unfold Moved start
  split <;> omega

/-- Numbers before and after a shift, and those that a table has to hold for
that. What it has to hold exceeds 16 bits by the gap at most, and if all of it
fits, and only then, each number has stayed or grown by the gap. -/
structure Carries (s : Shift) (old new needed : List Nat) : Prop where
  /-- There are as many numbers as before. -/
  length : new.length = old.length
  /-- No number exceeds 16 bits by more than the gap. -/
  bound : ∀ v ∈ needed, v ≤ 65535 + s.gap
  /-- Numbers are lost exactly if they do not fit. -/
  kept_iff : s.gap ≤ 65535 → (List.Forall₂ s.Moved old new ↔ ∀ v ∈ needed, v ≤ 65535)

namespace Carries

/-- No numbers. -/
theorem nil (s : Shift) : s.Carries [] [] [] :=
  ⟨rfl, fun v hv => (by cases hv), fun _ => iff_of_true .nil fun v hv => (by cases hv)⟩

/-- Numbers and more numbers. -/
theorem append (first : s.Carries old new needed) (second : s.Carries old' new' needed') :
    s.Carries (old ++ old') (new ++ new') (needed ++ needed') := by
  refine ⟨?_, ?_, fun hgap => ?_⟩
  · rw [List.length_append, List.length_append, first.length, second.length]
  · intro v hv
    rcases List.mem_append.mp hv with hv | hv
    · exact first.bound v hv
    · exact second.bound v hv
  · rw [forall₂_append_iff first.length, first.kept_iff hgap, second.kept_iff hgap,
      List.forall_mem_append]

/-- The numbers of several items. -/
theorem flatMap {ι : Type} {f g n : ι → List Nat} {items : List ι}
    (h : ∀ x ∈ items, s.Carries (f x) (g x) (n x)) :
    s.Carries (items.flatMap f) (items.flatMap g) (items.flatMap n) := by
  induction items with
  | nil => exact nil s
  | cons x items ih =>
    have hfirst := h x List.mem_cons_self
    exact hfirst.append (ih fun y hy => h y (List.mem_cons_of_mem _ hy))

/-- A number that is moved and then reduced to 16 bits. -/
theorem single {a b : Nat} (ha : a ≤ 65535) (h : s.Moved a b) :
    s.Carries [a] [b % 65536] [b] := by
  refine ⟨rfl, fun v hv => ?_, fun hgap => ?_⟩
  · cases List.mem_singleton.mp hv
    unfold Moved at h
    omega
  · rw [List.forall₂_cons, moved_mod_iff hgap ha h, List.forall_mem_singleton]
    exact and_iff_left .nil

/-- Numbers that are moved and then reduced to 16 bits. -/
theorem of_moved (h : List.Forall₂ (fun a b => a ≤ 65535 ∧ s.Moved a b) old needed) :
    s.Carries old (needed.map (· % 65536)) needed := by
  induction h with
  | nil => exact nil s
  | cons hab _ ih => exact (single hab.1 hab.2).append ih

end Carries

end Shift

/-! ## Handlers, lines and variables -/

section Tables

variable (s : Shift)

/-- What the positions of a handler have to become. -/
def Handler.needed (h : Handler) : List Nat := h.positions.map s.target

/-- The positions of a handler are carried along. -/
theorem Handler.carries (h : Handler) :
    s.Carries h.positions (h.shift s).positions (h.needed s) := by
  have hpositions : (h.shift s).positions = (h.needed s).map (· % 65536) := by
    simp only [needed, positions, shift, Shift.target16, UInt16.toNat_ofNat', List.map_cons,
      List.map_nil, Nat.reducePow]
  have hmoved : ∀ t : UInt16, t.toNat ≤ 65535 ∧ s.Moved t.toNat (s.target t.toNat) := fun t =>
    ⟨Nat.le_of_lt_succ t.toNat_lt, s.moved_target t.toNat⟩
  rw [hpositions]
  exact .of_moved (.cons (hmoved _) (.cons (hmoved _) (.cons (hmoved _) .nil)))

/-- The position of a line. -/
def LineNumber.places (e : LineNumber) : List Nat := [e.start.toNat]

/-- What the position of a line has to become. -/
def LineNumber.needed (e : LineNumber) : List Nat := [s.target e.start.toNat]

/-- The position of a line is carried along. -/
theorem LineNumber.carries (e : LineNumber) :
    s.Carries e.places (e.shift s).places (e.needed s) := by
  have hplaces : (e.shift s).places = [s.target e.start.toNat % 65536] := by
    simp only [places, shift, Shift.target16, UInt16.toNat_ofNat', Nat.reducePow]
  rw [hplaces]
  exact .single (Nat.le_of_lt_succ e.start.toNat_lt) (s.moved_target _)

/-- Where the range of a variable starts, and its length. -/
def LocalVariable.places (v : LocalVariable) : List Nat := [v.start.toNat, v.length.toNat]

/-- What start and length of a variable have to become, so that its range goes
where references to its ends go. -/
def LocalVariable.needed (v : LocalVariable) : List Nat :=
  [s.target v.start.toNat, s.target v.stop - s.target v.start.toNat]

/-- Start and length of a variable are carried along. -/
theorem LocalVariable.carries (v : LocalVariable) :
    s.Carries v.places (v.shift s).places (v.needed s) := by
  have hstart := Nat.le_of_lt_succ v.start.toNat_lt
  have hlength := Nat.le_of_lt_succ v.length.toNat_lt
  have hstop : v.stop = v.start.toNat + v.length.toNat := rfl
  have hgrown : s.Moved v.length.toNat (s.target v.stop - s.target v.start.toNat) := by
    unfold Shift.Moved
    rw [s.target_eq, s.target_eq]
    split <;> split <;> omega
  have hplaces : (v.shift s).places = (v.needed s).map (· % 65536) := by
    obtain ⟨hfirst, hlast⟩ := toNat_shift s v
    simp only [places, needed, List.map_cons, List.map_nil, hfirst, hlast]
  rw [hplaces]
  exact .of_moved (.cons ⟨hstart, s.moved_target _⟩ (.cons ⟨hlength, hgrown⟩ .nil))

end Tables

/-! ## Stack maps -/

section StackMaps

variable (s : Shift)

/-- The objects of a type are created where the instructions have gone, reduced to
16 bits. -/
theorem VerificationType.created_shift (type : VerificationType) :
    (type.shift s).created = type.created.map fun p => s.start p % 65536 := by
  cases type with
  | uninitialized position =>
    exact congrArg (fun n => [n]) UInt16.toNat_ofNat'
  | _ => rfl

/-- The objects of a frame are created where the instructions have gone, reduced to
16 bits, whatever the distance of the frame. -/
theorem StackFrame.created_shift (frame : StackFrame) (delta : UInt16) :
    ((frame.withDelta delta).mapTypes (VerificationType.shift s)).created =
      frame.created.map fun p => s.start p % 65536 := by
  unfold created
  rw [content_mapTypes, content_withDelta, ← List.map_append, List.flatMap_map, List.map_flatMap]
  simp only [VerificationType.created_shift]

namespace StackMap

/-- The objects of a stack map are created where the instructions have gone,
reduced to 16 bits. -/
theorem created_shiftFrom (frames : StackMap) (old new : Option Nat) :
    (shiftFrom s old new frames).created = frames.created.map fun p => s.start p % 65536 := by
  induction frames generalizing old new with
  | nil => rfl
  | cons frame frames ih =>
    unfold created at ih ⊢
    rw [shiftFrom, List.flatMap_cons, List.flatMap_cons, List.map_append, ih,
      StackFrame.created_shift]

/-- The positions of the objects of a stack map fit 16 bits. -/
theorem le_of_mem_created {frames : StackMap} : ∀ p ∈ frames.created, p ≤ 65535 := by
  intro p hp
  obtain ⟨frame, -, hp⟩ := List.mem_flatMap.mp hp
  obtain ⟨type, -, hp⟩ := List.mem_flatMap.mp hp
  cases type with
  | uninitialized position =>
    cases List.mem_singleton.mp hp
    exact Nat.le_of_lt_succ position.toNat_lt
  | _ => cases hp

variable {s}

/-- A distance stays or grows by the gap. -/
theorem moved_distance (before : Option Nat) (delta : UInt16) :
    s.Moved delta.toNat (distance (before.map s.target) (s.target (offsetAfter before delta))) := by
  unfold Shift.Moved
  cases before with
  | none => exact s.moved_target delta.toNat
  | some previous =>
    show s.target (previous + delta.toNat + 1) - s.target previous - 1 = _ ∨
      s.target (previous + delta.toNat + 1) - s.target previous - 1 = _
    rw [s.target_eq, s.target_eq]
    split <;> split <;> omega

/-- A frame whose distance does not fit 16 bits comes to lie too far in front. -/
theorem not_moved_of_distance {before : Option Nat} {delta : UInt16} (hgap : s.gap ≤ 65535)
    (h : ¬ distance (before.map s.target) (s.target (offsetAfter before delta)) ≤ 65535) :
    ¬ s.Moved (offsetAfter before delta) (offsetAfter (before.map s.target)
      (deltaAfter (before.map s.target) (s.target (offsetAfter before delta)))) := by
  have hdelta := delta.toNat_lt
  have hheld := toNat_deltaAfter (before.map s.target) (s.target (offsetAfter before delta))
  have hdistance := moved_distance (s := s) before delta
  unfold Shift.Moved at hdistance ⊢
  cases before with
  | none =>
    simp only [Option.map_none, distance, offsetAfter] at h hheld hdistance ⊢
    omega
  | some previous =>
    simp only [Option.map_some, distance, offsetAfter] at h hheld hdistance ⊢
    have hprevious := s.target_bounds previous
    have htarget := s.target_bounds (previous + delta.toNat + 1)
    omega

/-- There is a position for each frame. -/
theorem length_offsetsFrom (before : Option Nat) (frames : StackMap) :
    (offsetsFrom before frames).length = List.length frames := by
  induction frames generalizing before with
  | nil => rfl
  | cons frame frames ih => exact congrArg (· + 1) (ih _)

/-- The positions of frames are carried along. What has to fit are the distances
between them. -/
theorem carries_offsetsFrom (before : Option Nat) (frames : StackMap) :
    s.Carries (offsetsFrom before frames)
      (offsetsFrom (before.map s.target) (shiftFrom s before (before.map s.target) frames))
      (distancesFrom (before.map s.target) ((offsetsFrom before frames).map s.target)) := by
  induction frames generalizing before with
  | nil => exact .nil s
  | cons frame frames ih =>
    have hmoved := moved_distance (s := s) before frame.delta
    have hdelta := frame.delta.toNat_lt
    have hrest := ih (some (offsetAfter before frame.delta))
    refine ⟨?_, ?_, fun hgap => ?_⟩
    · rw [length_offsetsFrom, length_offsetsFrom, length_shiftFrom]
    · intro v hv
      rcases List.mem_cons.mp hv with rfl | hv
      · unfold Shift.Moved at hmoved
        omega
      · exact hrest.bound v hv
    · simp only [shiftFrom, offsetsFrom, StackFrame.delta_mapTypes, StackFrame.delta_withDelta,
        List.map_cons, distancesFrom, List.forall₂_cons, List.forall_mem_cons]
      by_cases hfits : distance (before.map s.target)
          (s.target (offsetAfter before frame.delta)) ≤ 65535
      · rw [offsetAfter_deltaAfter target_lt_of_mem_before hfits]
        exact and_congr (iff_of_true (s.moved_target _) hfits) (hrest.kept_iff hgap)
      · -- the positions behind a frame that is lost do not matter
        exact iff_of_false (fun h => not_moved_of_distance hgap hfits h.1) fun h => hfits h.1

/-- What the positions in a stack map have to become, as distances where the table
holds distances. -/
def needed (s : Shift) (frames : StackMap) : List Nat :=
  distancesFrom none ((offsets frames).map s.target) ++ frames.created.map s.start

/-- The positions of frames and of the instructions that created objects. -/
def places (frames : StackMap) : List Nat := offsets frames ++ frames.created

/-- The positions in a stack map are carried along. -/
theorem carries (frames : StackMap) :
    s.Carries frames.places (shift s frames).places (frames.needed s) := by
  have hoffsets : s.Carries (offsets frames) (offsets (shift s frames))
      (distancesFrom none ((offsets frames).map s.target)) := by
    rw [offsets_eq, offsets_eq, shift_eq]
    exact carries_offsetsFrom none frames
  have hcreated : s.Carries frames.created (shift s frames).created
      (frames.created.map s.start) := by
    have hreduced : (shift s frames).created = (frames.created.map s.start).map (· % 65536) := by
      rw [shift_eq, created_shiftFrom, List.map_map]
      rfl
    rw [hreduced]
    refine .of_moved (List.forall₂_map_right_iff.mpr (List.forall₂_same.mpr fun p hp => ?_))
    exact ⟨le_of_mem_created p hp, s.moved_start p⟩
  exact hoffsets.append hcreated

end StackMap

end StackMaps

/-! ## Bodies -/

/-- The positions and lengths in a payload that belongs to a body. -/
def AttributeData.places : AttributeData → List Nat
  | .lineNumbers table => table.flatMap LineNumber.places
  | .localVariables table | .localVariableTypes table => table.flatMap LocalVariable.places
  | .stackMap frames => frames.places
  | _ => []

/-- What the positions and lengths in a payload have to become. -/
def AttributeData.needed (s : Shift) : AttributeData → List Nat
  | .lineNumbers table => table.flatMap (LineNumber.needed s)
  | .localVariables table | .localVariableTypes table => table.flatMap (LocalVariable.needed s)
  | .stackMap frames => frames.needed s
  | _ => []

/-- The positions and lengths in an attribute of a body. Those in a body that is
nested into it belong to that body. -/
def Attribute.places (a : Attribute) : List Nat :=
  match a.body with
  | .code _ => []
  | .data payload => payload.places

/-- What the positions and lengths in an attribute have to become. -/
def Attribute.needed (s : Shift) (a : Attribute) : List Nat :=
  match a.body with
  | .code _ => []
  | .data payload => payload.needed s

/-- The positions and lengths in the tables of a body. -/
def Code.places (code : Code) : List Nat :=
  code.handlers.flatMap Handler.positions ++ code.attributes.flatMap Attribute.places

/-- What the positions and lengths in the tables of a body have to become, or the
distances that stand for them. -/
def Code.needed (s : Shift) (code : Code) : List Nat :=
  code.handlers.flatMap (Handler.needed s) ++ code.attributes.flatMap (Attribute.needed s)

section Bodies

variable (s : Shift)

/-- The positions and lengths in a payload are carried along. -/
theorem AttributeData.carries (payload : AttributeData) :
    s.Carries payload.places (payload.shift s).places (payload.needed s) := by
  cases payload with
  | lineNumbers table =>
    show s.Carries _ ((table.map (LineNumber.shift s)).flatMap LineNumber.places) _
    rw [List.flatMap_map]
    exact .flatMap fun e _ => e.carries s
  | localVariables table | localVariableTypes table =>
    show s.Carries _ ((table.map (LocalVariable.shift s)).flatMap LocalVariable.places) _
    rw [List.flatMap_map]
    exact .flatMap fun v _ => v.carries s
  | stackMap frames => exact frames.carries
  | _ => exact .nil s

/-- The positions and lengths in an attribute are carried along. -/
theorem Attribute.carries (a : Attribute) :
    s.Carries a.places (a.shift s).places (a.needed s) := by
  obtain ⟨nameIndex, body⟩ := a
  cases body with
  | code nested => exact .nil s
  | data payload => exact payload.carries s

namespace Code

variable {s}

/-- The positions and lengths in the tables of a body are carried along when the
tables are shifted. -/
theorem carries_of_tables {code next : Code}
    (hhandlers : next.handlers = code.handlers.map (Handler.shift s))
    (hattributes : next.attributes = code.attributes.map (Attribute.shift s)) :
    s.Carries code.places next.places (code.needed s) := by
  unfold places
  rw [hhandlers, hattributes, List.flatMap_map, List.flatMap_map]
  exact .append (.flatMap fun h _ => h.carries s) (.flatMap fun a _ => a.carries s)

/-- Whatever inserting a gap does to the tables, their positions and lengths stay
or grow by the gap exactly if what they have to become fits 16 bits. -/
theorem moved_places_iff {code next : Code} {position length : Nat} {exclusive : Bool}
    (h : code.insertGap position length exclusive = .ok (s, next)) :
    List.Forall₂ s.Moved code.places next.places ↔ ∀ v ∈ code.needed s, v ≤ 65535 := by
  obtain ⟨hshift, hcases⟩ := insertGap_cases h
  rcases hcases with ⟨rfl, rfl⟩ | ⟨-, hroom, hmade⟩
  · -- nothing is inserted, and what is there fits
    have hgap : s.gap = 0 := congrArg Shift.gap hshift
    have hcarries : s.Carries next.places
        { next with
          handlers := next.handlers.map (Handler.shift s)
          attributes := next.attributes.map (Attribute.shift s) : Code }.places
        (next.needed s) := carries_of_tables rfl rfl
    refine iff_of_true (List.forall₂_same.mpr fun p _ => .inl rfl) fun v hv => ?_
    have hbound := hcarries.bound v hv
    omega
  · rw [← hshift] at hmade
    have hgap : s.gap = gapLength length := congrArg Shift.gap hshift
    obtain ⟨bytes, -, hmade⟩ := bind_eq_ok_iff.mp hmade
    cases hmade
    exact (carries_of_tables rfl rfl).kept_iff (by omega)

/-- Whether a gap can be inserted is decided by the instructions alone. -/
theorem exists_insertGap_of_bytes {code other next : Code} {position length : Nat}
    {exclusive : Bool} (hbytes : other.bytes = code.bytes)
    (h : code.insertGap position length exclusive = .ok (s, next)) :
    ∃ made, other.insertGap position length exclusive = .ok (s, made) := by
  unfold insertGap makeRoom at h ⊢
  rw [hbytes]
  split at h
  · cases h
    exact ⟨other, if_pos ‹_›⟩
  next hlength =>
  split at h
  · cases h
  next hposition =>
  simp only at h ⊢
  split at h
  · cases h
  next hroom =>
  obtain ⟨made, hmade, h⟩ := bind_eq_ok_iff.mp h
  obtain ⟨bytes, hrelocated, -⟩ := bind_eq_ok_iff.mp hmade
  cases h
  rw [if_neg hlength, if_neg hposition, if_neg hroom, hrelocated]
  exact ⟨_, rfl⟩

end Code

end Bodies

namespace Cursor

/-- When a gap is inserted into a body, the start, end and target of every
handler, the start of every line, the start and length of every variable, the
position of every frame and that of every instruction that created an object stay
as they are or grow by the gap, as integers, exactly if each number that the
tables have to hold for that fits 16 bits. A number that does not fit stops
nothing: the same gap is inserted into every body of the same instructions. -/
theorem insertGap_moved_places_iff {cursor next : Cursor} {position length : Nat}
    {exclusive : Bool} {inserted : Shift}
    (h : (insertGap position length exclusive).runOn cursor = (.ok inserted, next)) :
    (List.Forall₂ inserted.Moved cursor.code.places next.code.places ↔
        ∀ v ∈ cursor.code.needed inserted, v ≤ 65535) ∧
      ∀ other : Cursor, other.code.bytes = cursor.code.bytes →
        ∃ made, (insertGap position length exclusive).runOn other = (.ok inserted, made) := by
  rw [runOn_insertGap] at h
  cases hinserted : cursor.code.insertGap position length exclusive with
  | error e =>
    rw [hinserted] at h
    cases h
  | ok result =>
    obtain ⟨shift, made⟩ := result
    rw [hinserted] at h
    cases h
    refine ⟨Code.moved_places_iff hinserted, fun other hbytes => ?_⟩
    obtain ⟨made', hother⟩ := Code.exists_insertGap_of_bytes hbytes hinserted
    rw [runOn_insertGap, hother]
    exact ⟨_, rfl⟩

/-- A body with positions and a length in each table that just fit 16 bits after a
gap of four bytes. -/
def tightTables : Code where
  maxStack := 1
  maxLocals := 1
  bytes := #[0x00, 0xb1]
  handlers := [{ start := 0, stop := 2, target := 65531, catchType := 0 }]
  attributes :=
    [{ nameIndex := 2, body := .data (.lineNumbers [⟨0, 10⟩, ⟨65531, 11⟩]) },
      { nameIndex := 3, body := .data (.localVariables [⟨0, 65531, 4, 5, 0⟩]) },
      { nameIndex := 6, body := .data (.stackMap [.same 0, .full 65531 [] [.uninitialized 1]]) }]

/-- All of them move, and none is lost. -/
theorem insertGap_moved_places_tightTables :
    ∃ next, (insertGap 1 1 true).runOn (.ofCode tightTables) = (.ok ⟨1, 4, true⟩, next) ∧
      List.Forall₂ (Shift.Moved ⟨1, 4, true⟩)
        [0, 2, 65531, 0, 65531, 0, 65531, 0, 65532, 1] next.code.places := by
  have hinserted : ((insertGap 1 1 true).runOn (.ofCode tightTables)).1 =
      .ok ⟨1, 4, true⟩ := by decide +kernel
  have houtcome := Edit.runOn_eq_of_fst _ hinserted
  exact ⟨_, houtcome, (insertGap_moved_places_iff houtcome).1.mpr (by decide +kernel)⟩

/-- A body of one instruction, with a handler at the last position of 16 bits. -/
def lastHandler : Code where
  maxStack := 1
  maxLocals := 1
  bytes := #[0xb1]
  handlers := [{ start := 0, stop := 1, target := 65535, catchType := 0 }]
  attributes := []

/-- A number that does not fit is lost, and the gap is inserted all the same: the
handler, which can be read, would have to go to 65539. -/
theorem insertGap_not_moved_places :
    ¬ ∀ (pool : ConstantPool) (bytes rest : List UInt8) (code : Code) (position length : Nat)
      (exclusive : Bool) (inserted : Shift) (next : Cursor),
      Code.decode pool bytes = .ok (code, rest) →
      (insertGap position length exclusive).runOn (.ofCode code) = (.ok inserted, next) →
      List.Forall₂ inserted.Moved code.places next.code.places := by
  intro hkept
  have hread : Code.decode (.empty 0)
      [0, 1, 0, 1, 0, 0, 0, 1, 0xb1, 0, 1, 0, 0, 0, 1, 0xff, 0xff, 0, 0, 0, 0] =
        .ok (lastHandler, []) := by rfl
  have hinserted : ((insertGap 0 1 false).runOn (.ofCode lastHandler)).1 =
      .ok ⟨0, 4, false⟩ := by decide +kernel
  have hmoved := hkept _ _ _ _ _ _ _ _ _ hread (Edit.runOn_eq_of_fst _ hinserted)
  have hplaces : ((insertGap 0 1 false).runOn (.ofCode lastHandler)).2.code.places =
      [0, 5, 3] := by decide +kernel
  rw [hplaces] at hmoved
  cases hmoved with
  | cons _ hmoved =>
    cases hmoved with
    | cons _ hmoved =>
      cases hmoved with
      | cons htarget _ => exact absurd htarget (by decide)

end Cursor

end JvmClass
