import JvmClass.Proofs.Code.GapInsertion
import Mathlib.Data.List.Forall2

/-!
# Tables of a body after gap insertion

The tables of a body stay with its instructions when a gap is inserted. Handlers
cover, lines and variables name, and frames describe the same instructions as
before, wherever these are now. All that is needed is that the tables do not
refer to positions behind the end of the code.
-/

namespace JvmClass

variable {s : Shift} {size : Nat}

/-! ## Handlers -/

namespace Handler

/-- Whether an entry covers the instruction at a position. -/
def Covers (h : Handler) (p : Nat) : Prop := h.start.toNat ≤ p ∧ p < h.stop.toNat

/-- The positions of an entry. -/
def positions (h : Handler) : List Nat := [h.start.toNat, h.stop.toNat, h.target.toNat]

/-- An entry stays with its instructions: it covers an instruction exactly if it
covered it before, and goes where a branch to its target goes. -/
structure Follows (s : Shift) (old new : Handler) : Prop where
  /-- The same instructions are covered. -/
  covers : ∀ p, new.Covers (s.start p) ↔ old.Covers p
  /-- The target is that of a branch. -/
  target : (new.target.toNat : Int) = s.branchTarget old.target.toNat
  /-- The same class is caught. -/
  catchType : new.catchType = old.catchType

/-- Handlers stay with their instructions. -/
theorem follows_shift {h : Handler} (hwithin : ∀ p ∈ h.positions, p ≤ size)
    (hroom : s.gap = 0 ∨ size + s.gap ≤ 65535) : Follows s h (h.shift s) := by
  have hstart := s.toNat_target16 (hwithin h.start.toNat (by simp [positions])) hroom
  have hstop := s.toNat_target16 (hwithin h.stop.toNat (by simp [positions])) hroom
  have htarget := s.toNat_target16 (hwithin h.target.toNat (by simp [positions])) hroom
  refine ⟨fun p => ?_, ?_, rfl⟩
  · unfold Covers
    show (s.target16 h.start).toNat ≤ s.start p ∧ s.start p < (s.target16 h.stop).toNat ↔ _
    rw [hstart, hstop, s.target_le_start_iff, s.start_lt_target_iff]
  · rw [s.branchTarget_natCast]
    exact congrArg Nat.cast htarget

/-- Handlers that are left alone stay with instructions that do not move. -/
theorem follows_self (hgap : s.gap = 0) (h : Handler) : Follows s h h := by
  refine ⟨fun p => ?_, ?_, rfl⟩
  · rw [s.start_of_gap_eq_zero hgap]
  · rw [s.branchTarget_natCast, s.target_of_gap_eq_zero hgap]

end Handler

/-! ## Line numbers -/

namespace LineNumber

/-- A table gives every instruction its line, wherever it is now. -/
def TableFollows (s : Shift) (old new : List LineNumber) : Prop :=
  ∀ p, lineAt? new (s.start p) = lineAt? old p

/-- Lines stay with their instructions. -/
theorem tableFollows_shift {table : List LineNumber}
    (hwithin : ∀ e ∈ table, e.start.toNat ≤ size) (hroom : size + s.gap ≤ 65535) :
    TableFollows s table (table.map (shift s)) := by
  intro p
  have hstarted : (table.map (shift s)).takeWhile (fun e => e.start.toNat ≤ s.start p) =
      (table.takeWhile fun e => e.start.toNat ≤ p).map (shift s) := by
    rw [List.takeWhile_map]
    congr 1
    induction table with
    | nil => rfl
    | cons e table ih =>
      have hstart := s.toNat_target16 (hwithin e List.mem_cons_self) (.inr hroom)
      have hiff := s.target_le_start_iff e.start.toNat p
      have hcons : decide ((shift s e).start.toNat ≤ s.start p) = decide (e.start.toNat ≤ p) := by
        show decide ((s.target16 e.start).toNat ≤ s.start p) = _
        rw [hstart, decide_eq_decide]
        exact hiff
      simp only [List.takeWhile_cons, Function.comp, hcons]
      rw [← ih fun e he => hwithin e (List.mem_cons_of_mem _ he)]
  unfold lineAt?
  simp only [hstarted, List.getLast?_map, List.head?_map]
  cases (table.takeWhile fun e => e.start.toNat ≤ p).getLast? with
  | some e => rfl
  | none => cases table.head? <;> rfl

end LineNumber

/-! ## Local variables -/

namespace LocalVariable

/-- A table tells the same variables of every instruction, wherever it is now. -/
def TableFollows (s : Shift) (old new : List LocalVariable) : Prop :=
  List.Forall₂ (fun v w => (w.nameIndex, w.typeIndex, w.slot) = (v.nameIndex, v.typeIndex, v.slot) ∧
    ∀ p slot, w ∈ liveAt new (s.start p) slot ↔ v ∈ liveAt old p slot) old new

/-- Start and length of a shifted variable lead to where references to its ends
go, as far as they fit 16 bits. -/
theorem toNat_shift (s : Shift) (v : LocalVariable) :
    (v.shift s).start.toNat = s.target v.start.toNat % 65536 ∧
      (v.shift s).length.toNat = (s.target v.stop - s.target v.start.toNat) % 65536 := by
  have hstart := s.moves_iff v.start.toNat
  have hstop := s.moves_iff v.stop
  have hends : v.stop = v.start.toNat + v.length.toNat := rfl
  have hfirst := v.start.toNat_lt
  have hlength := v.length.toNat_lt
  rw [s.target_eq, s.target_eq]
  unfold shift
  by_cases hmoves : s.threshold ≤ v.start.toNat
  · rw [if_pos (hstart.mpr hmoves), if_pos hmoves, if_pos (by omega)]
    simp only [UInt16.toNat_ofNat', Nat.reducePow, true_and]
    omega
  · rw [if_neg (fun h => hmoves (hstart.mp h)), if_neg hmoves]
    by_cases hgrows : s.threshold ≤ v.stop
    · rw [if_pos hgrows, if_pos (hstop.mpr hgrows)]
      simp only [UInt16.toNat_ofNat', Nat.reducePow]
      omega
    · rw [if_neg hgrows, if_neg (fun h => hgrows (hstop.mp h))]
      omega

/-- The range of a variable goes where references to its ends go. -/
theorem bounds_shift {v : LocalVariable} (hwithin : v.stop ≤ size)
    (hroom : size + s.gap ≤ 65535) :
    (v.shift s).start.toNat = s.target v.start.toNat ∧ (v.shift s).stop = s.target v.stop := by
  have hends : v.stop = v.start.toNat + v.length.toNat := rfl
  have hbounds := s.target_bounds v.stop
  have horder : s.target v.start.toNat ≤ s.target v.stop := by
    rw [s.target_eq, s.target_eq]
    split <;> split <;> omega
  obtain ⟨hstart, hlength⟩ := toNat_shift s v
  have hstop : (v.shift s).stop = (v.shift s).start.toNat + (v.shift s).length.toNat := rfl
  omega

/-- A shifted variable keeps its name, its type and its slot. -/
theorem fields_shift (v : LocalVariable) : ((v.shift s).nameIndex, (v.shift s).typeIndex,
    (v.shift s).slot) = (v.nameIndex, v.typeIndex, v.slot) := by
  unfold shift
  split
  · rfl
  · split <;> rfl

/-- Variables stay live at their instructions. -/
theorem isLiveAt_shift {v : LocalVariable} (hwithin : v.stop ≤ size)
    (hroom : size + s.gap ≤ 65535) (p : Nat) (slot : UInt16) :
    (v.shift s).isLiveAt (s.start p) slot = v.isLiveAt p slot := by
  obtain ⟨hstart, hstop⟩ := bounds_shift hwithin hroom
  have hslot : (v.shift s).slot = v.slot := (Prod.mk.inj (Prod.mk.inj (fields_shift v)).2).2
  have hfirst := s.target_le_start_iff v.start.toNat p
  have hlast := s.start_lt_target_iff v.stop p
  unfold isLiveAt
  rw [hstart, hstop, hslot, decide_eq_decide.mpr hfirst, decide_eq_decide.mpr hlast]

/-- Tables of variables stay with their instructions. -/
theorem tableFollows_shift {table : List LocalVariable} (hwithin : ∀ v ∈ table, v.stop ≤ size)
    (hroom : size + s.gap ≤ 65535) : TableFollows s table (table.map (shift s)) := by
  refine List.forall₂_map_right_iff.mpr (List.forall₂_same.mpr fun v hv => ⟨fields_shift v, ?_⟩)
  intro p slot
  unfold liveAt
  rw [List.mem_filter, List.mem_filter, isLiveAt_shift (hwithin v hv) hroom]
  exact and_congr_left' (iff_of_true (List.mem_map_of_mem hv) hv)

end LocalVariable

/-! ## Stack maps -/

namespace VerificationType

/-- A type stays the same, except that an object not yet initialized is named by
where the instruction that created it is now. Nothing is said of positions at
which no instruction starts. -/
def Follows (s : Shift) (starts : List Nat) : VerificationType → VerificationType → Prop
  | .uninitialized old, .uninitialized new =>
    old.toNat ∈ starts → new.toNat = s.start old.toNat
  | old, new => new = old

/-- Types stay with their instructions if the new places of these fit 16 bits. -/
theorem follows_shift {starts : List Nat} (hfits : ∀ p ∈ starts, s.start p ≤ 65535)
    (type : VerificationType) : Follows s starts type (type.shift s) := by
  cases type with
  | uninitialized position =>
    intro hp
    have hle := hfits _ hp
    show (UInt16.ofNat (s.start position.toNat)).toNat = _
    rw [UInt16.toNat_ofNat']
    omega
  | _ => rfl

/-- Types that are left alone stay with instructions that do not move. -/
theorem follows_self {starts : List Nat} (hgap : s.gap = 0) (type : VerificationType) :
    Follows s starts type type := by
  cases type with
  | uninitialized position => exact fun _ => (s.start_of_gap_eq_zero hgap _).symm
  | _ => rfl

end VerificationType

namespace StackFrame

/-- What a frame says of the locals and operands at its position. -/
structure Content where
  /-- How many locals of the frame before are gone. All are if there is no
  number. -/
  gone : Option UInt8
  /-- The locals that come in addition. -/
  locals : List VerificationType
  /-- The operands. -/
  operands : List VerificationType

/-- What a frame says, apart from its position. -/
def content : StackFrame → Content
  | .same _ | .sameExtended _ => ⟨some 0, [], []⟩
  | .oneOperand _ operand | .oneOperandExtended _ operand => ⟨some 0, [], [operand]⟩
  | .chop _ count => ⟨some count, [], []⟩
  | .append _ locals => ⟨some 0, locals, []⟩
  | .full _ locals operands => ⟨none, locals, operands⟩

/-- Frames say the same, each type up to the place of an instruction. -/
structure Content.Follows (s : Shift) (starts : List Nat) (old new : Content) : Prop where
  /-- The same locals are gone. -/
  gone : new.gone = old.gone
  /-- The same locals come in addition. -/
  locals : List.Forall₂ (VerificationType.Follows s starts) old.locals new.locals
  /-- The operands are the same. -/
  operands : List.Forall₂ (VerificationType.Follows s starts) old.operands new.operands

/-- A frame has the distance that it is given. -/
@[simp]
theorem delta_withDelta (delta : UInt16) (frame : StackFrame) :
    (frame.withDelta delta).delta = delta := by
  cases frame <;> simp only [withDelta] <;> first | rfl | (split <;> rfl)

/-- Changing its types leaves the distance of a frame. -/
@[simp]
theorem delta_mapTypes (f : VerificationType → VerificationType) (frame : StackFrame) :
    (frame.mapTypes f).delta = frame.delta := by
  cases frame <;> rfl

/-- A frame says the same at another distance. -/
@[simp]
theorem content_withDelta (delta : UInt16) (frame : StackFrame) :
    (frame.withDelta delta).content = frame.content := by
  cases frame <;> simp only [withDelta] <;> first | rfl | (split <;> rfl)

/-- Changing the types of a frame changes them one by one. -/
@[simp]
theorem content_mapTypes (f : VerificationType → VerificationType) (frame : StackFrame) :
    (frame.mapTypes f).content =
      ⟨frame.content.gone, frame.content.locals.map f, frame.content.operands.map f⟩ := by
  cases frame <;> rfl

end StackFrame

namespace StackMap

/-- The positions of frames, given the position before them. -/
def offsetsFrom (before : Option Nat) : StackMap → List Nat
  | [] => []
  | frame :: frames =>
    offsetAfter before frame.delta :: offsetsFrom (some (offsetAfter before frame.delta)) frames

/-- The frames after bytes are inserted, given the position before them as it
was and as it is now. -/
def shiftFrom (s : Shift) (old new : Option Nat) : StackMap → StackMap
  | [] => []
  | frame :: frames =>
    let offset := offsetAfter old frame.delta
    ((frame.withDelta (deltaAfter new (s.target offset))).mapTypes (VerificationType.shift s)) ::
      shiftFrom s (some offset) (some (s.target offset)) frames

/-- Positions are computed frame by frame. -/
theorem offsets_eq (frames : StackMap) : offsets frames = offsetsFrom none frames := by
  have h : ∀ before done, offsetsAfter before done frames =
      done.reverse ++ offsetsFrom before frames := by
    induction frames with
    | nil => simp [offsetsAfter, offsetsFrom]
    | cons frame frames ih =>
      intro before done
      rw [offsetsAfter, ih, List.reverse_cons, List.append_assoc]
      rfl
  exact h none []

/-- Frames are shifted one by one. -/
theorem shift_eq (s : Shift) (frames : StackMap) :
    shift s frames = shiftFrom s none none frames := by
  have h : ∀ old new done, shiftAfter s old new done frames =
      done.reverse ++ shiftFrom s old new frames := by
    induction frames with
    | nil => simp [shiftAfter, shiftFrom]
    | cons frame frames ih =>
      intro old new done
      rw [shiftAfter, ih, List.reverse_cons, List.append_assoc]
      rfl
  exact h none none []

/-- The distance of a position from the one before it, less one, of whatever
size. -/
def distance (before : Option Nat) (position : Nat) : Nat :=
  match before with
  | none => position
  | some previous => position - previous - 1

/-- The distances between positions in a row. -/
def distancesFrom (before : Option Nat) : List Nat → List Nat
  | [] => []
  | position :: positions => distance before position :: distancesFrom (some position) positions

/-- A distance is no larger than the position. -/
theorem distance_le (before : Option Nat) (position : Nat) : distance before position ≤ position := by
  unfold distance
  split <;> omega

/-- The distances between positions that fit 16 bits do so, too. -/
theorem le_of_mem_distancesFrom {positions : List Nat} (h : ∀ p ∈ positions, p ≤ size)
    (before : Option Nat) : ∀ d ∈ distancesFrom before positions, d ≤ size := by
  induction positions generalizing before with
  | nil => exact fun d hd => by cases hd
  | cons position positions ih =>
    intro d hd
    rcases List.mem_cons.mp hd with rfl | hd
    · exact Nat.le_trans (distance_le before position) (h position List.mem_cons_self)
    · exact ih (fun p hp => h p (List.mem_cons_of_mem _ hp)) _ d hd

/-- A frame holds the distance as far as it fits 16 bits. -/
theorem toNat_deltaAfter (before : Option Nat) (position : Nat) :
    (deltaAfter before position).toNat = distance before position % 65536 := by
  cases before <;> exact UInt16.toNat_ofNat'

/-- A distance that fits 16 bits leads to the position that it was computed
for. -/
theorem offsetAfter_deltaAfter {before : Option Nat} {position : Nat}
    (hbefore : ∀ p ∈ before, p < position) (hfits : distance before position ≤ 65535) :
    offsetAfter before (deltaAfter before position) = position := by
  have hdelta := toNat_deltaAfter before position
  rw [Nat.mod_eq_of_lt (by omega)] at hdelta
  cases before with
  | none => exact hdelta
  | some p =>
    have hp := hbefore p rfl
    have hdelta : (deltaAfter (some p) position).toNat = position - p - 1 := hdelta
    show p + (deltaAfter (some p) position).toNat + 1 = position
    omega

/-- The position before a frame is shifted to one before the shifted frame. -/
theorem target_lt_of_mem_before {before : Option Nat} {delta : UInt16} :
    ∀ p ∈ before.map s.target, p < s.target (offsetAfter before delta) := by
  intro p hp
  obtain ⟨q, rfl, rfl⟩ := Option.map_eq_some_iff.mp hp
  exact s.target_lt_target (Nat.lt_succ_of_le (Nat.le_add_right ..))

/-- The positions of shifted frames are the shifted positions, if the distances
between these fit 16 bits. -/
theorem offsetsFrom_shiftFrom {frames : StackMap} {before : Option Nat}
    (hfits : ∀ d ∈ distancesFrom (before.map s.target) ((offsetsFrom before frames).map s.target),
      d ≤ 65535) :
    offsetsFrom (before.map s.target) (shiftFrom s before (before.map s.target) frames) =
      (offsetsFrom before frames).map s.target := by
  induction frames generalizing before with
  | nil => rfl
  | cons frame frames ih =>
    have hplace : offsetAfter (before.map s.target)
        (deltaAfter (before.map s.target) (s.target (offsetAfter before frame.delta))) =
          s.target (offsetAfter before frame.delta) :=
      offsetAfter_deltaAfter target_lt_of_mem_before (hfits _ List.mem_cons_self)
    have hrest := @ih (some (offsetAfter before frame.delta)) fun d hd =>
      hfits d (List.mem_cons_of_mem _ hd)
    simp only [shiftFrom, offsetsFrom, StackFrame.delta_mapTypes, StackFrame.delta_withDelta,
      List.map_cons]
    rw [hplace]
    exact congrArg _ hrest

/-- A stack map says the same of the same instructions, wherever these are now. -/
structure Follows (s : Shift) (starts : List Nat) (old new : StackMap) : Prop where
  /-- The frames are where branches to them lead, in the same order. -/
  offsets : StackMap.offsets new = (StackMap.offsets old).map s.target
  /-- The frames say the same. -/
  contents : List.Forall₂ (fun f g => StackFrame.Content.Follows s starts f.content g.content)
    old new

/-- Stack maps stay with their instructions if the new places of these, and of
the frames, fit 16 bits. -/
theorem follows_shift {starts : List Nat} {frames : StackMap}
    (hstarts : ∀ p ∈ starts, s.start p ≤ 65535)
    (hoffsets : ∀ p ∈ StackMap.offsets frames, s.target p ≤ 65535) :
    Follows s starts frames (shift s frames) := by
  rw [offsets_eq] at hoffsets
  rw [shift_eq]
  refine ⟨?_, ?_⟩
  · rw [offsets_eq, offsets_eq]
    have hfits : ∀ d ∈ distancesFrom ((none : Option Nat).map s.target)
        ((offsetsFrom none frames).map s.target), d ≤ 65535 :=
      le_of_mem_distancesFrom (List.forall_mem_map.mpr hoffsets) none
    exact offsetsFrom_shiftFrom hfits
  · have hmap : ∀ types, List.Forall₂ (VerificationType.Follows s starts) types
        (types.map (VerificationType.shift s)) := fun types =>
      List.forall₂_map_right_iff.mpr (List.forall₂_same.mpr fun type _ =>
        VerificationType.follows_shift hstarts type)
    have h : ∀ old new, List.Forall₂ (fun f g : StackFrame =>
        StackFrame.Content.Follows s starts f.content g.content) frames
          (shiftFrom s old new frames) := by
      clear hoffsets
      induction frames with
      | nil => exact fun _ _ => .nil
      | cons frame frames ih =>
        refine fun old new => .cons ?_ (ih _ _)
        rw [StackFrame.content_mapTypes, StackFrame.content_withDelta]
        exact ⟨rfl, hmap _, hmap _⟩
    exact h none none

/-- Stack maps that are left alone stay with instructions that do not move. -/
theorem follows_self {starts : List Nat} (hgap : s.gap = 0) (frames : StackMap) :
    Follows s starts frames frames := by
  have hsame : ∀ types, List.Forall₂ (VerificationType.Follows s starts) types types :=
    fun types => List.forall₂_same.mpr fun type _ => VerificationType.follows_self hgap type
  refine ⟨?_, List.forall₂_same.mpr fun _ _ => ⟨rfl, hsame _, hsame _⟩⟩
  have htarget : s.target = id := funext (s.target_of_gap_eq_zero hgap)
  rw [htarget, List.map_id]

end StackMap

/-! ## Bodies -/

/-- The positions that a payload refers to, but for those of instructions that
created objects. -/
def AttributeData.positions : AttributeData → List Nat
  | .lineNumbers table => table.map fun e => e.start.toNat
  | .localVariables table | .localVariableTypes table =>
    table.flatMap fun v => [v.start.toNat, v.stop]
  | .stackMap frames => StackMap.offsets frames
  | _ => []

/-- The positions that the tables of a body refer to. -/
def Code.positions (code : Code) : List Nat :=
  code.handlers.flatMap Handler.positions ++ code.attributes.flatMap fun a =>
    match a.body with
    | .data payload => payload.positions
    | .code _ => []

/-- A payload stays with the instructions of the body that it belongs to. -/
def AttributeData.Follows (s : Shift) (starts : List Nat) : AttributeData → AttributeData → Prop
  | .lineNumbers old, .lineNumbers new => LineNumber.TableFollows s old new
  | .localVariables old, .localVariables new => LocalVariable.TableFollows s old new
  | .localVariableTypes old, .localVariableTypes new => LocalVariable.TableFollows s old new
  | .stackMap old, .stackMap new => StackMap.Follows s starts old new
  | old, new => new = old

/-- An attribute stays with the instructions of the body that it belongs to. -/
def Attribute.Follows (s : Shift) (starts : List Nat) (old new : Attribute) : Prop :=
  new.nameIndex = old.nameIndex ∧
    match old.body, new.body with
    | .data old, .data new => old.Follows s starts new
    | old, new => new = old

/-- All tables of a body stay with its instructions. -/
structure Code.Follows (s : Shift) (starts : List Nat) (old new : Code) : Prop where
  /-- The handlers do, in the same order. -/
  handlers : List.Forall₂ (Handler.Follows s) old.handlers new.handlers
  /-- The attributes do, in the same order. -/
  attributes : List.Forall₂ (Attribute.Follows s starts) old.attributes new.attributes
  /-- The limits stay. -/
  limits : (new.maxStack, new.maxLocals) = (old.maxStack, old.maxLocals)

/-- Payloads stay with their instructions. -/
theorem AttributeData.follows_shift {starts : List Nat} {payload : AttributeData}
    (hstarts : ∀ p ∈ starts, p ≤ size) (hwithin : ∀ p ∈ payload.positions, p ≤ size)
    (hroom : size + s.gap ≤ 65535) : payload.Follows s starts (payload.shift s) := by
  cases payload with
  | lineNumbers table =>
    exact LineNumber.tableFollows_shift (fun e he => hwithin _ (List.mem_map_of_mem he)) hroom
  | localVariables table =>
    exact LocalVariable.tableFollows_shift
      (fun v hv => hwithin _ (List.mem_flatMap.mpr ⟨v, hv, by simp⟩)) hroom
  | localVariableTypes table =>
    exact LocalVariable.tableFollows_shift
      (fun v hv => hwithin _ (List.mem_flatMap.mpr ⟨v, hv, by simp⟩)) hroom
  | stackMap frames =>
    refine StackMap.follows_shift (fun p hp => ?_) fun p hp => ?_
    · have hle := hstarts p hp
      have hbounds := s.start_bounds p
      omega
    · have hle := hwithin p hp
      have hbounds := s.target_bounds p
      omega
  | _ => rfl

/-- Payloads that are left alone stay with instructions that do not move. -/
theorem AttributeData.follows_self {starts : List Nat} (hgap : s.gap = 0)
    (payload : AttributeData) : payload.Follows s starts payload := by
  cases payload with
  | lineNumbers table =>
    intro p
    rw [s.start_of_gap_eq_zero hgap]
  | localVariables table | localVariableTypes table =>
    refine List.forall₂_same.mpr fun v _ => ⟨rfl, fun p slot => ?_⟩
    rw [s.start_of_gap_eq_zero hgap]
  | stackMap frames => exact StackMap.follows_self hgap frames
  | _ => rfl

namespace Code

variable {code : Code} {starts : List Nat}

/-- The tables of a relocated body stay with its instructions. -/
theorem follows_relocated {fields : List BranchField}
    (hstarts : ∀ p ∈ starts, p ≤ size) (hwithin : ∀ p ∈ code.positions, p ≤ size)
    (hroom : size + s.gap ≤ 65535) : Follows s starts code (code.relocated s fields) := by
  refine ⟨?_, ?_, rfl⟩
  · refine List.forall₂_map_right_iff.mpr (List.forall₂_same.mpr fun h hh => ?_)
    exact Handler.follows_shift (fun p hp => hwithin p (List.mem_append_left _
      (List.mem_flatMap.mpr ⟨h, hh, hp⟩))) (.inr hroom)
  · refine List.forall₂_map_right_iff.mpr (List.forall₂_same.mpr fun a ha => ?_)
    obtain ⟨nameIndex, body⟩ := a
    cases body with
    | code nested => exact ⟨rfl, rfl⟩
    | data payload =>
      exact ⟨rfl, AttributeData.follows_shift hstarts (fun p hp => hwithin p
        (List.mem_append_right _ (List.mem_flatMap.mpr ⟨_, ha, hp⟩))) hroom⟩

/-- The tables of a body that is left alone stay with instructions that do not
move. -/
theorem follows_self (hgap : s.gap = 0) (code : Code) : Follows s starts code code := by
  refine ⟨List.forall₂_same.mpr fun h _ => Handler.follows_self hgap h,
    List.forall₂_same.mpr fun a _ => ?_, rfl⟩
  obtain ⟨nameIndex, body⟩ := a
  cases body with
  | code nested => exact ⟨rfl, rfl⟩
  | data payload => exact ⟨rfl, payload.follows_self hgap⟩

end Code

/-- Wherever a gap is inserted, the tables of the body stay with its
instructions, provided that they refer to nothing behind the end of the code. -/
theorem Cursor.insertGap_follows {cursor next : Cursor} {starts : List Nat}
    {position length : Nat} {exclusive : Bool} {inserted : Shift}
    (hstarts : Bytecode.starts cursor.code.bytes = .ok starts)
    (hwithin : ∀ p ∈ cursor.code.positions, p ≤ cursor.code.bytes.size)
    (h : (insertGap position length exclusive).runOn cursor = (.ok inserted, next)) :
    Code.Follows ⟨position, Code.gapLength length, exclusive⟩ starts cursor.code next.code := by
  have walk := Bytecode.starts_eq_ok_iff.mp hstarts
  rw [runOn_insertGap] at h
  cases hinserted : cursor.code.insertGap position length exclusive with
  | error e =>
    rw [hinserted] at h
    cases h
  | ok result =>
    obtain ⟨shift, made⟩ := result
    rw [hinserted] at h
    cases h
    rcases (Code.insertGap_cases hinserted).2 with ⟨hzero, hsame⟩ | ⟨-, hroom, hmade⟩
    · rw [hsame]
      exact Code.follows_self (by rw [hzero]; rfl) cursor.code
    · rw [Code.makeRoom_eq walk] at hmade
      split at hmade
      · cases hmade
        exact Code.follows_relocated (fun p hp => Nat.le_of_lt (walk.mem_bounds hp).2) hwithin hroom
      · cases hmade

/-- A loop that creates objects, with a table of every sort. -/
def Cursor.creationLoop : Code where
  maxStack := 1
  maxLocals := 1
  bytes := #[0xbb, 0, 1, 0x57, 0xa7, 0xff, 0xfc]
  handlers := [{ start := 0, stop := 3, target := 3, catchType := 0 }]
  attributes :=
    [{ nameIndex := 2, body := .data (.lineNumbers [⟨0, 10⟩, ⟨3, 11⟩]) },
      { nameIndex := 3, body := .data (.localVariables [⟨3, 4, 4, 5, 0⟩]) },
      { nameIndex := 6, body := .data (.stackMap [.same 0, .full 2 [] [.uninitialized 0]]) }]

/-- The tables of the loop stay with its instructions when a gap is inserted
between the creation of an object and what follows it. -/
theorem Cursor.insertGap_follows_creationLoop :
    (Bytecode.starts creationLoop.bytes = .ok [0, 3, 4] ∧
      ∀ p ∈ creationLoop.positions, p ≤ creationLoop.bytes.size) ∧
      ∃ next, (insertGap 3 1 false).runOn (.ofCode creationLoop) = (.ok ⟨3, 4, false⟩, next) ∧
        Code.Follows ⟨3, 4, false⟩ [0, 3, 4] creationLoop next.code := by
  have hstarts : Bytecode.starts creationLoop.bytes = .ok [0, 3, 4] := by decide +kernel
  have hwithin : ∀ p ∈ creationLoop.positions, p ≤ creationLoop.bytes.size := by decide
  have hinserted : ((insertGap 3 1 false).runOn (.ofCode creationLoop)).1 =
      .ok ⟨3, 4, false⟩ := by decide +kernel
  have houtcome := Edit.runOn_eq_of_fst _ hinserted
  exact ⟨⟨hstarts, hwithin⟩, _, houtcome, insertGap_follows hstarts hwithin houtcome⟩

end JvmClass
