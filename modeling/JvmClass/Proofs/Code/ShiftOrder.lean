import JvmClass.Proofs.Code.Wrapping

/-!
# Two shifts in both orders

Of two shifts, the one that comes later has to be at the instruction for which it was
meant, wherever the earlier one has moved it. Then instructions, branches and references
are taken to the same places in both orders. So are the entries of all tables, as long as
these refer to nothing behind the end of the code and there is room for both gaps. A
frame of a stack map may change its form on the way, but only its last distance counts.
-/

namespace JvmClass

/-! ## Two shifts -/

namespace Shift

variable {a b : Shift}

/-- A shift behind another one, which may have moved the instruction that it is for. -/
def after (b a : Shift) : Shift := { b with position := a.start b.position }

/-- Two shifts take instructions to the same places in both orders. -/
theorem start_after (a b : Shift) (p : Nat) :
    (b.after a).start (a.start p) = (a.after b).start (b.start p) := by
  simp only [after, start]
  split_ifs <;> omega

/-- The first reference that moves is further behind by the gap before it. -/
theorem threshold_after (b a : Shift) :
    (b.after a).threshold = a.start b.position + (b.threshold - b.position) := by
  unfold after threshold
  split <;> simp

/-- Two shifts at different instructions take references to the same places in both
orders. -/
theorem target_after (hne : a.position ≠ b.position) (t : Nat) :
    (b.after a).target (a.target t) = (a.after b).target (b.target t) := by
  have ha := a.threshold_bounds
  have hb := b.threshold_bounds
  have hgap : (b.after a).gap = b.gap ∧ (a.after b).gap = a.gap := ⟨rfl, rfl⟩
  simp only [target_eq, threshold_after, hgap, start]
  split_ifs <;> omega

/-- Where a branch goes, by the threshold. -/
theorem branchTarget_eq (s : Shift) (t : Int) :
    s.branchTarget t = if (s.threshold : Int) ≤ t then t + s.gap else t := by
  unfold branchTarget threshold
  cases s.exclusive with
  | false =>
    simp only [Bool.false_and, Bool.or_false, decide_eq_true_eq, Bool.false_eq_true, if_false]
    split_ifs <;> omega
  | true =>
    simp only [Bool.true_and, Bool.or_eq_true, decide_eq_true_eq, beq_iff_eq, if_true]
    split_ifs <;> omega

/-- Two shifts at different instructions take branches to the same places in both
orders. -/
theorem branchTarget_after (hne : a.position ≠ b.position) (t : Int) :
    (b.after a).branchTarget (a.branchTarget t) = (a.after b).branchTarget (b.branchTarget t) := by
  have ha := a.threshold_bounds
  have hb := b.threshold_bounds
  have hgap : (b.after a).gap = b.gap ∧ (a.after b).gap = a.gap := ⟨rfl, rfl⟩
  simp only [branchTarget_eq, threshold_after, hgap, start]
  split_ifs <;> omega

/-- A shift takes the two ends of a branch no closer to each other, and leaves them in
their order. -/
theorem distance_bounds (s : Shift) (t : Int) (p : Nat) :
    0 < t - p ∧ t - p ≤ s.branchTarget t - s.start p ∨
      t - p ≤ 0 ∧ s.branchTarget t - s.start p ≤ t - p := by
  have hs := s.threshold_bounds
  rw [branchTarget_eq]
  unfold start
  split_ifs <;> omega

/-- A shift takes positions no closer to each other. -/
theorem target_spreads (s : Shift) {t u : Nat} (h : t < u) :
    s.target t + (u - t) ≤ s.target u := by
  rw [target_eq, target_eq]
  split_ifs <;> omega

/-- Instructions stay apart. -/
theorem start_injective (s : Shift) : Function.Injective s.start := by
  intro p q h
  unfold start at h
  split_ifs at h <;> omega

/-- References of 16 bits are taken to the same places in both orders, if there is room
for both gaps. -/
theorem target16_after (hne : a.position ≠ b.position) {t : UInt16} {size : Nat}
    (ht : t.toNat ≤ size) (hroom : size + a.gap + b.gap ≤ 65535) :
    (b.after a).target16 (a.target16 t) = (a.after b).target16 (b.target16 t) := by
  have hmid {a b : Shift} (hroom : size + a.gap + b.gap ≤ 65535) :
      ((b.after a).target16 (a.target16 t)).toNat = (b.after a).target (a.target t.toNat) := by
    have hfirst := a.toNat_target16 ht (.inr (by omega))
    have hbounds := a.target_bounds t.toNat
    have hwithin : (a.target16 t).toNat ≤ size + a.gap := by omega
    rw [(b.after a).toNat_target16 hwithin (.inr hroom), hfirst]
  refine UInt16.toNat_inj.mp ?_
  rw [hmid hroom, hmid (by omega), target_after hne]

end Shift

/-! ## Tables -/

/-- Variables with the same range and the same other fields are the same. -/
theorem LocalVariable.ext_of_range {v w : LocalVariable} (hstart : v.start.toNat = w.start.toNat)
    (hstop : v.stop = w.stop)
    (hfields : (v.nameIndex, v.typeIndex, v.slot) = (w.nameIndex, w.typeIndex, w.slot)) :
    v = w := by
  obtain ⟨start, length, nameIndex, typeIndex, slot⟩ := v
  obtain ⟨start', length', nameIndex', typeIndex', slot'⟩ := w
  unfold stop at hstop
  cases hfields
  cases UInt16.toNat_inj.mp hstart
  cases UInt16.toNat_inj.mp (Nat.add_left_cancel hstop)
  rfl

section Tables

variable {a b : Shift} {size : Nat} (hne : a.position ≠ b.position)
  (hroom : size + a.gap + b.gap ≤ 65535)

include hne hroom

/-- A handler is the same after two shifts in both orders. -/
theorem Handler.shift_after {h : Handler} (hwithin : ∀ p ∈ h.positions, p ≤ size) :
    (h.shift a).shift (b.after a) = (h.shift b).shift (a.after b) := by
  have hstart := Shift.target16_after hne (hwithin h.start.toNat (by simp [positions])) hroom
  have hstop := Shift.target16_after hne (hwithin h.stop.toNat (by simp [positions])) hroom
  have htarget := Shift.target16_after hne (hwithin h.target.toNat (by simp [positions])) hroom
  simp only [shift, hstart, hstop, htarget]

/-- A line is the same after two shifts in both orders. -/
theorem LineNumber.shift_after {e : LineNumber} (hwithin : e.start.toNat ≤ size) :
    (e.shift a).shift (b.after a) = (e.shift b).shift (a.after b) := by
  simp only [shift, Shift.target16_after hne hwithin hroom]

omit hne hroom in
/-- The range of a variable after two shifts. -/
theorem LocalVariable.bounds_shift_after {v : LocalVariable} (hwithin : v.stop ≤ size)
    (hroom : size + a.gap + b.gap ≤ 65535) :
    ((v.shift a).shift (b.after a)).start.toNat = (b.after a).target (a.target v.start.toNat) ∧
      ((v.shift a).shift (b.after a)).stop = (b.after a).target (a.target v.stop) := by
  obtain ⟨hstart, hstop⟩ := bounds_shift (s := a) hwithin (by omega)
  have hbounds := a.target_bounds v.stop
  have hwithin' : (v.shift a).stop ≤ size + a.gap := by omega
  obtain ⟨hstart', hstop'⟩ := bounds_shift (s := b.after a) hwithin' hroom
  rw [hstart', hstop', hstart, hstop]
  exact ⟨rfl, rfl⟩

/-- A variable is the same after two shifts in both orders. -/
theorem LocalVariable.shift_after {v : LocalVariable} (hwithin : v.stop ≤ size) :
    (v.shift a).shift (b.after a) = (v.shift b).shift (a.after b) := by
  obtain ⟨hstart, hstop⟩ := bounds_shift_after (a := a) (b := b) hwithin hroom
  obtain ⟨hstart', hstop'⟩ := bounds_shift_after (a := b) (b := a) hwithin (by omega)
  have hfields := (fields_shift (s := b.after a) (v.shift a)).trans (fields_shift v)
  have hfields' := (fields_shift (s := a.after b) (v.shift b)).trans (fields_shift v)
  rw [Shift.target_after hne] at hstart hstop
  exact ext_of_range (hstart.trans hstart'.symm) (hstop.trans hstop'.symm)
    (hfields.trans hfields'.symm)

end Tables

/-! ## Stack maps -/

/-- A type is the same after two shifts in both orders. -/
theorem VerificationType.shift_after {a b : Shift} {size : Nat}
    (hroom : size + a.gap + b.gap ≤ 65535) {type : VerificationType}
    (hwithin : ∀ p ∈ type.created, p ≤ size) :
    (type.shift a).shift (b.after a) = (type.shift b).shift (a.after b) := by
  cases type with
  | uninitialized position =>
    have hp : position.toNat ≤ size := hwithin _ List.mem_cons_self
    have hfirst := a.start_bounds position.toNat
    have hsecond := b.start_bounds position.toNat
    refine congrArg VerificationType.uninitialized (congrArg UInt16.ofNat ?_)
    rw [UInt16.toNat_ofNat_of_lt' (show a.start position.toNat < 65536 by omega),
      UInt16.toNat_ofNat_of_lt' (show b.start position.toNat < 65536 by omega),
      Shift.start_after]
  | _ => rfl

namespace StackFrame

/-- A frame that goes further twice takes the form for the second distance. -/
theorem withDelta_mapTypes_withDelta {delta delta' : UInt16} (h : delta ≤ delta')
    (f : VerificationType → VerificationType) (frame : StackFrame) :
    ((frame.withDelta delta).mapTypes f).withDelta delta' =
      (frame.withDelta delta').mapTypes f := by
  cases frame with
  | same | oneOperand =>
    unfold withDelta
    by_cases hnear : delta' ≤ 63
    · have hbefore : delta ≤ 63 := UInt16.le_trans h hnear
      simp only [hnear, hbefore, if_true, mapTypes]
    · by_cases hbefore : delta ≤ 63 <;> simp only [hnear, hbefore, if_true, if_false, mapTypes]
  | _ => rfl

/-- The types of a frame are changed twice. -/
theorem mapTypes_mapTypes (f g : VerificationType → VerificationType) (frame : StackFrame) :
    (frame.mapTypes f).mapTypes g = frame.mapTypes (g ∘ f) := by
  cases frame <;> simp only [mapTypes, List.map_map, Function.comp_apply]

/-- Types that are changed to the same lead to the same frame. -/
theorem mapTypes_congr {f g : VerificationType → VerificationType} {frame : StackFrame}
    (h : ∀ type ∈ frame.content.locals ++ frame.content.operands, f type = g type) :
    frame.mapTypes f = frame.mapTypes g := by
  cases frame with
  | same | chop | sameExtended => rfl
  | oneOperand delta operand | oneOperandExtended delta operand =>
    simp only [mapTypes, h operand (by simp [content])]
  | append delta locals =>
    have hlocals := List.map_congr_left fun type htype => h type (List.mem_append_left _ htype)
    exact congrArg (StackFrame.append delta) hlocals
  | full delta locals operands =>
    have hlocals := List.map_congr_left fun type htype => h type (List.mem_append_left _ htype)
    have hoperands := List.map_congr_left fun type htype => h type (List.mem_append_right _ htype)
    exact congrArg₂ (StackFrame.full delta) hlocals hoperands

end StackFrame

namespace StackMap

variable {place place' : Nat → Nat} {types types' : VerificationType → VerificationType}

/-- The frames at their new places, given the position before them as it was. -/
def placeFrom (place : Nat → Nat) (types : VerificationType → VerificationType)
    (before : Option Nat) : StackMap → StackMap
  | [] => []
  | frame :: frames =>
    let offset := offsetAfter before frame.delta
    ((frame.withDelta (deltaAfter (before.map place) (place offset))).mapTypes types) ::
      placeFrom place types (some offset) frames

/-- A shift puts frames where references to them go. -/
theorem shiftFrom_eq_placeFrom (s : Shift) (before : Option Nat) (frames : StackMap) :
    shiftFrom s before (before.map s.target) frames =
      placeFrom s.target (VerificationType.shift s) before frames := by
  induction frames generalizing before with
  | nil => rfl
  | cons frame frames ih => exact congrArg _ (ih (some (offsetAfter before frame.delta)))

/-- Places that are no closer to each other than the positions were. -/
structure Apart (place : Nat → Nat) : Prop where
  /-- No position goes backward. -/
  le : ∀ t, t ≤ place t
  /-- No two positions come closer. -/
  add_le : ∀ t u, t < u → place t + (u - t) ≤ place u

/-- A shift takes positions no closer to each other. -/
theorem apart_target (s : Shift) : Apart s.target :=
  ⟨fun t => (s.target_bounds t).1, fun _ _ h => s.target_spreads h⟩

/-- A distance does not get smaller. -/
theorem Apart.distance_le (apart : Apart place) {before : Option Nat} {position : Nat}
    (hbefore : ∀ p ∈ before, p < position) :
    distance before position ≤ distance (before.map place) (place position) := by
  cases before with
  | none => exact apart.le position
  | some p =>
    have hp := hbefore p rfl
    have hplaces := apart.add_le p position hp
    show position - p - 1 ≤ place position - place p - 1
    omega

/-- Frames that are put elsewhere twice are put where both ways lead. -/
theorem placeFrom_placeFrom (first : Apart place) (second : Apart place') {before : Option Nat}
    {frames : StackMap} (hfits : ∀ p ∈ offsetsFrom before frames, place' (place p) ≤ 65535) :
    placeFrom place' types' (before.map place) (placeFrom place types before frames) =
      placeFrom (place' ∘ place) (types' ∘ types) before frames := by
  induction frames generalizing before with
  | nil => rfl
  | cons frame frames ih =>
    have hbehind : ∀ p ∈ before, p < offsetAfter before frame.delta := fun p hp => by
      cases hp
      exact Nat.lt_succ_of_le (Nat.le_add_right ..)
    have hbehind' : ∀ p ∈ before.map place, p < place (offsetAfter before frame.delta) := by
      intro p hp
      obtain ⟨q, hq, rfl⟩ := Option.map_eq_some_iff.mp hp
      have h := first.add_le q _ (hbehind q hq)
      have hlt := hbehind q hq
      omega
    have hfits' := hfits _ List.mem_cons_self
    have hgrows := second.distance_le hbehind'
    have hdistance := distance_le ((before.map place).map place')
      (place' (place (offsetAfter before frame.delta)))
    -- the frame in between is at the first place
    have hplace : offsetAfter (before.map place) (deltaAfter (before.map place)
        (place (offsetAfter before frame.delta))) = place (offsetAfter before frame.delta) :=
      offsetAfter_deltaAfter hbehind' (by omega)
    have hdelta : deltaAfter (before.map place) (place (offsetAfter before frame.delta)) ≤
        deltaAfter ((before.map place).map place')
          (place' (place (offsetAfter before frame.delta))) := by
      rw [UInt16.le_iff_toNat_le, toNat_deltaAfter, toNat_deltaAfter]
      omega
    have hrest := @ih (some (offsetAfter before frame.delta)) fun p hp =>
      hfits p (List.mem_cons_of_mem _ hp)
    simp only [placeFrom, StackFrame.delta_mapTypes, StackFrame.delta_withDelta]
    rw [hplace, StackFrame.withDelta_mapTypes_withDelta hdelta, StackFrame.mapTypes_mapTypes,
      Option.map_map]
    exact congrArg _ hrest

/-- Frames whose types are changed to the same are the same. -/
theorem placeFrom_congr {before : Option Nat} {frames : StackMap}
    (h : ∀ frame ∈ frames, ∀ type ∈ frame.content.locals ++ frame.content.operands,
      types type = types' type) :
    placeFrom place types before frames = placeFrom place types' before frames := by
  induction frames generalizing before with
  | nil => rfl
  | cons frame frames ih =>
    have hrest := @ih (some (offsetAfter before frame.delta)) fun other hother =>
      h other (List.mem_cons_of_mem _ hother)
    have hfirst := h frame List.mem_cons_self
    have hcontent (delta : UInt16) : (frame.withDelta delta).content = frame.content :=
      StackFrame.content_withDelta delta frame
    simp only [placeFrom]
    rw [hrest, StackFrame.mapTypes_congr (by rw [hcontent]; exact hfirst)]

/-- A stack map is the same after two shifts in both orders. -/
theorem shift_after {a b : Shift} {size : Nat} (hne : a.position ≠ b.position)
    (hroom : size + a.gap + b.gap ≤ 65535) {frames : StackMap}
    (hoffsets : ∀ p ∈ offsets frames, p ≤ size) (hcreated : ∀ p ∈ frames.created, p ≤ size) :
    shift (b.after a) (shift a frames) = shift (a.after b) (shift b frames) := by
  have htwice {a b : Shift} (hroom : size + a.gap + b.gap ≤ 65535) :
      shift (b.after a) (shift a frames) = placeFrom ((b.after a).target ∘ a.target)
        (VerificationType.shift (b.after a) ∘ VerificationType.shift a) none frames := by
    have hfirst := shiftFrom_eq_placeFrom a none frames
    have hsecond := shiftFrom_eq_placeFrom (b.after a) none (shift a frames)
    rw [Option.map_none, ← shift_eq] at hfirst hsecond
    rw [hsecond, hfirst]
    have hfits : ∀ p ∈ offsetsFrom none frames, (b.after a).target (a.target p) ≤ 65535 := ?_
    · exact placeFrom_placeFrom (apart_target a) (apart_target (b.after a)) hfits
    intro p hp
    have hp := hoffsets p (by rwa [offsets_eq])
    have hbounds := a.target_bounds p
    have hbounds' := (b.after a).target_bounds (a.target p)
    have hgap : (b.after a).gap = b.gap := rfl
    omega
  have htarget : (b.after a).target ∘ a.target = (a.after b).target ∘ b.target :=
    funext (Shift.target_after hne)
  rw [htwice hroom, htwice (by omega), htarget]
  refine placeFrom_congr fun frame hframe type htype => ?_
  refine VerificationType.shift_after hroom fun p hp => hcreated p ?_
  exact List.mem_flatMap.mpr ⟨frame, hframe, List.mem_flatMap.mpr ⟨type, htype, hp⟩⟩

end StackMap

/-! ## Attributes -/

/-- The positions of the instructions that created the objects of a payload. -/
def AttributeData.created : AttributeData → List Nat
  | .stackMap frames => frames.created
  | _ => []

/-- The positions of the instructions that created the objects of a body. -/
def Code.created (code : Code) : List Nat :=
  code.attributes.flatMap fun a =>
    match a.body with
    | .data payload => payload.created
    | .code _ => []

/-- The tables of a body refer to nothing behind its end. -/
structure Code.Within (code : Code) : Prop where
  /-- No position lies there. -/
  positions : ∀ p ∈ code.positions, p ≤ code.bytes.size
  /-- No object has been created there. -/
  created : ∀ p ∈ code.created, p ≤ code.bytes.size

section Within

variable {s : Shift} {size : Nat} (hroom : size + s.gap ≤ 65535)

include hroom

/-- A reference of 16 bits goes no further than the end goes. -/
theorem Shift.target16_le {t : UInt16} (ht : t.toNat ≤ size) :
    (s.target16 t).toNat ≤ size + s.gap := by
  have hbounds := s.target_bounds t.toNat
  rw [s.toNat_target16 ht (.inr hroom)]
  omega

/-- A shifted handler refers to nothing behind the end. -/
theorem Handler.shift_within {h : Handler} (hwithin : ∀ p ∈ h.positions, p ≤ size) :
    ∀ p ∈ (h.shift s).positions, p ≤ size + s.gap := by
  unfold positions at hwithin ⊢
  simp only [List.forall_mem_cons] at hwithin ⊢
  obtain ⟨hstart, hstop, htarget, -⟩ := hwithin
  exact ⟨Shift.target16_le hroom hstart, Shift.target16_le hroom hstop,
    Shift.target16_le hroom htarget, fun _ h => by cases h⟩

/-- A shifted payload refers to nothing behind the end. -/
theorem AttributeData.shift_within {payload : AttributeData}
    (hwithin : ∀ p ∈ payload.positions, p ≤ size) :
    ∀ p ∈ (payload.shift s).positions, p ≤ size + s.gap := by
  have hvariables {table : List LocalVariable}
      (hwithin : ∀ p ∈ table.flatMap fun v => [v.start.toNat, v.stop], p ≤ size) :
      ∀ p ∈ (table.map (LocalVariable.shift s)).flatMap fun v => [v.start.toNat, v.stop],
        p ≤ size + s.gap := by
    intro p hp
    obtain ⟨w, hw, hp⟩ := List.mem_flatMap.mp hp
    obtain ⟨v, hv, rfl⟩ := List.mem_map.mp hw
    have hends : v.start.toNat ≤ v.stop := Nat.le_add_right ..
    have hstop := hwithin v.stop (List.mem_flatMap.mpr ⟨v, hv, by simp⟩)
    obtain ⟨hstart', hstop'⟩ := LocalVariable.bounds_shift hstop hroom
    have hbounds := s.target_bounds v.start.toNat
    have hbounds' := s.target_bounds v.stop
    rcases List.mem_pair.mp hp with rfl | rfl <;> omega
  cases payload with
  | lineNumbers table =>
    intro p hp
    obtain ⟨e', he', rfl⟩ := List.mem_map.mp hp
    obtain ⟨e, he, rfl⟩ := List.mem_map.mp he'
    exact Shift.target16_le hroom (hwithin _ (List.mem_map_of_mem he))
  | localVariables table | localVariableTypes table => exact hvariables hwithin
  | stackMap frames =>
    intro p hp
    have hfits : ∀ p ∈ StackMap.offsets frames, s.target p ≤ 65535 := fun p hp => by
      have hle := hwithin p hp
      have hbounds := s.target_bounds p
      omega
    have hfollows : StackMap.Follows s [] frames (StackMap.shift s frames) :=
      StackMap.follows_shift (fun p hp => by cases hp) hfits
    have hp : p ∈ StackMap.offsets (StackMap.shift s frames) := hp
    rw [hfollows.offsets] at hp
    obtain ⟨q, hq, rfl⟩ := List.mem_map.mp hp
    exact Nat.le_trans (s.target_bounds q).2 (Nat.add_le_add_right (hwithin q hq) _)
  | _ => exact fun p hp => by cases hp

omit hroom in
/-- The objects of a shifted payload have not been created behind the end. -/
theorem AttributeData.shift_created_within {payload : AttributeData}
    (hcreated : ∀ p ∈ payload.created, p ≤ size) :
    ∀ p ∈ (payload.shift s).created, p ≤ size + s.gap := by
  cases payload with
  | stackMap frames =>
    intro p hp
    have hp : p ∈ (StackMap.shift s frames).created := hp
    rw [StackMap.shift_eq, StackMap.created_shiftFrom] at hp
    obtain ⟨q, hq, rfl⟩ := List.mem_map.mp hp
    have hbounds := s.start_bounds q
    have hle := hcreated q hq
    have hmod := Nat.mod_le (s.start q) 65536
    omega
  | _ => exact fun p hp => by cases hp

end Within

/-- The tables of a body with a gap refer to nothing behind its end. -/
theorem Code.Opened.within {s : Shift} {code new : Code} {starts : List Nat}
    (opened : Opened s starts code new)
    (hsome : s.gap ≠ 0) (hwithin : code.Within) : new.Within := by
  have hroom := opened.room.resolve_left hsome
  have hattributes := opened.attributes
  rw [if_neg hsome] at hattributes
  obtain ⟨hpositions, hcreated⟩ := hwithin
  refine ⟨fun p hp => ?_, fun p hp => ?_⟩
  · rw [opened.size]
    unfold positions at hpositions hp
    rw [opened.handlers, hattributes] at hp
    rcases List.mem_append.mp hp with hp | hp
    · obtain ⟨h', hh', hp⟩ := List.mem_flatMap.mp hp
      obtain ⟨h, hh, rfl⟩ := List.mem_map.mp hh'
      refine Handler.shift_within hroom (fun q hq => hpositions q ?_) p hp
      exact List.mem_append_left _ (List.mem_flatMap.mpr ⟨h, hh, hq⟩)
    · obtain ⟨x', hx', hp⟩ := List.mem_flatMap.mp hp
      obtain ⟨⟨nameIndex, body⟩, hx, rfl⟩ := List.mem_map.mp hx'
      cases body with
      | code nested => cases hp
      | data payload =>
        refine AttributeData.shift_within hroom (fun q hq => hpositions q ?_) p hp
        exact List.mem_append_right _ (List.mem_flatMap.mpr ⟨_, hx, hq⟩)
  · rw [opened.size]
    unfold created at hcreated hp
    rw [hattributes] at hp
    obtain ⟨x', hx', hp⟩ := List.mem_flatMap.mp hp
    obtain ⟨⟨nameIndex, body⟩, hx, rfl⟩ := List.mem_map.mp hx'
    cases body with
    | code nested => cases hp
    | data payload =>
      exact AttributeData.shift_created_within
        (fun q hq => hcreated q (List.mem_flatMap.mpr ⟨_, hx, hq⟩)) p hp

section Attributes

variable {a b : Shift} {size : Nat} (hne : a.position ≠ b.position)
  (hroom : size + a.gap + b.gap ≤ 65535)

include hne hroom

/-- A payload is the same after two shifts in both orders. -/
theorem AttributeData.shift_after {payload : AttributeData}
    (hwithin : ∀ p ∈ payload.positions, p ≤ size) (hcreated : ∀ p ∈ payload.created, p ≤ size) :
    (payload.shift a).shift (b.after a) = (payload.shift b).shift (a.after b) := by
  have hvariables {table : List LocalVariable}
      (hwithin : ∀ p ∈ table.flatMap fun v => [v.start.toNat, v.stop], p ≤ size) :
      (table.map (LocalVariable.shift a)).map (LocalVariable.shift (b.after a)) =
        (table.map (LocalVariable.shift b)).map (LocalVariable.shift (a.after b)) := by
    rw [List.map_map, List.map_map]
    refine List.map_congr_left fun v hv => LocalVariable.shift_after hne hroom ?_
    exact hwithin _ (List.mem_flatMap.mpr ⟨v, hv, by simp⟩)
  cases payload with
  | lineNumbers table =>
    refine congrArg AttributeData.lineNumbers ?_
    rw [List.map_map, List.map_map]
    refine List.map_congr_left fun e he => LineNumber.shift_after hne hroom ?_
    exact hwithin _ (List.mem_map_of_mem he)
  | localVariables table => exact congrArg AttributeData.localVariables (hvariables hwithin)
  | localVariableTypes table => exact congrArg AttributeData.localVariableTypes (hvariables hwithin)
  | stackMap frames =>
    exact congrArg AttributeData.stackMap (StackMap.shift_after hne hroom hwithin hcreated)
  | _ => rfl

/-- Handlers are the same after two shifts in both orders. -/
theorem Code.shift_handlers_after {code : Code} (hwithin : ∀ p ∈ code.positions, p ≤ size) :
    (code.handlers.map (Handler.shift a)).map (Handler.shift (b.after a)) =
      (code.handlers.map (Handler.shift b)).map (Handler.shift (a.after b)) := by
  rw [List.map_map, List.map_map]
  refine List.map_congr_left fun h hh => Handler.shift_after hne hroom fun p hp => ?_
  exact hwithin p (List.mem_append_left _ (List.mem_flatMap.mpr ⟨h, hh, hp⟩))

/-- Attributes are the same after two shifts in both orders. -/
theorem Code.shift_attributes_after {code : Code} (hwithin : ∀ p ∈ code.positions, p ≤ size)
    (hcreated : ∀ p ∈ code.created, p ≤ size) :
    (code.attributes.map (Attribute.shift a)).map (Attribute.shift (b.after a)) =
      (code.attributes.map (Attribute.shift b)).map (Attribute.shift (a.after b)) := by
  rw [List.map_map, List.map_map]
  refine List.map_congr_left fun x hmem => ?_
  have hpositions := fun p hp => hwithin p (List.mem_append_right _
    (List.mem_flatMap.mpr ⟨x, hmem, hp⟩))
  have hcreated := fun p hp => hcreated p (List.mem_flatMap.mpr ⟨x, hmem, hp⟩)
  obtain ⟨nameIndex, body⟩ := x
  cases body with
  | code nested => rfl
  | data payload =>
    exact congrArg (fun payload => Attribute.mk nameIndex (.data payload))
      (AttributeData.shift_after hne hroom hpositions hcreated)

end Attributes

end JvmClass
