import JvmClass.Proofs.Code.Copying
import JvmClass.Proofs.Code.GapOrder

/-!
# Widened loads in any order

A load gets its wide form in two steps: a gap is inserted before it, and the wide load is
written over the end of the gap and the old load. What is written there is no branch, so
that a gap for another load does not depend on it. So loads can be widened in any order,
as gaps can be inserted in any order, and copying, which widens them from back to front,
gives what every other order gives.
-/

namespace JvmClass

namespace Bytecode

variable {code : Bytecode} {s : Shift} {u v : Nat} {bytes bytes' : List UInt8}

/-! ## Overwritten bytes -/

/-- Overwritten bytes are moved by a gap that does not part them. -/
theorem withGap_overwrite (hs : s.position ≤ code.size) (hroom : u + bytes.length ≤ code.size)
    (hapart : s.position ≤ u ∨ u + bytes.length ≤ s.position) :
    (code.overwrite u bytes).withGap s = (code.withGap s).overwrite (s.start u) bytes := by
  have hs' : s.position ≤ (code.overwrite u bytes).size := by rwa [size_overwrite]
  have hroom' : s.start u + bytes.length ≤ (code.withGap s).size := by
    have hbounds := s.start_bounds u
    rw [size_withGap hs]
    omega
  refine Array.ext_getElem? fun i => ?_
  rw [getElem?_overwrite hroom']
  by_cases hgap : s.position ≤ i ∧ i < s.position + s.gap
  · rw [getElem?_withGap_of_inside hs' hgap.1 hgap.2, getElem?_withGap_of_inside hs hgap.1 hgap.2,
      if_neg (by unfold Shift.start; split <;> omega)]
  · -- any other byte comes from one of the old code
    obtain ⟨j, rfl⟩ : ∃ j, s.start j = i := by
      unfold Shift.start
      by_cases hi : i < s.position
      · exact ⟨i, if_neg (by omega)⟩
      · exact ⟨i - s.gap, by rw [if_pos (by omega)]; omega⟩
    rw [getElem?_withGap_start hs', getElem?_withGap_start hs, getElem?_overwrite hroom]
    unfold Shift.start
    split_ifs <;> first | rfl | omega | (congr 1; omega)

end Bytecode

namespace Code

open Bytecode (Walk Loads wideLoad)

variable {code mid new : Code} {starts : List Nat} {u p q : Nat} {bytes : List UInt8}

/-- A body in which some bytes are overwritten. -/
def overwritten (u : Nat) (bytes : List UInt8) (code : Code) : Code :=
  { code with bytes := Bytecode.overwrite code.bytes u bytes }

/-- Instructions that are written over others. Neither these nor those are branches. -/
structure Rewritten (code : Code) (u : Nat) (bytes : List UInt8)
    (before replaced written behind : List Nat) : Prop where
  /-- Instructions come before them. -/
  front : Walk code.bytes 0 before u
  /-- They replace instructions. -/
  middle : Walk code.bytes u replaced (u + bytes.length)
  /-- Instructions come behind them. -/
  back : Walk code.bytes (u + bytes.length) behind code.bytes.size
  /-- They are instructions. -/
  inside : Walk (code.overwritten u bytes).bytes u written (u + bytes.length)
  /-- What is replaced are no branches. -/
  replaced_fields : ∀ r ∈ replaced, Bytecode.branchFieldsAt code.bytes r = []
  /-- What is written are no branches. -/
  written_fields : ∀ r ∈ written, Bytecode.branchFieldsAt (code.overwritten u bytes).bytes r = []

namespace Rewritten

variable {before replaced written behind : List Nat}
  (rewritten : Rewritten code u bytes before replaced written behind)

include rewritten

/-- The bytes lie within the body. -/
theorem room : u + bytes.length ≤ code.bytes.size := rewritten.back.le

/-- The body is walked over all instructions. -/
theorem walk : Walk code.bytes 0 (before ++ replaced ++ behind) code.bytes.size :=
  (rewritten.front.trans rewritten.middle).trans rewritten.back

/-- Instructions before and behind are what they were. -/
theorem eq_of_mem {r : Nat} (hr : r ∈ before ∨ r ∈ behind) :
    Bytecode.instructionLength (code.overwritten u bytes).bytes r =
        Bytecode.instructionLength code.bytes r ∧
      Bytecode.branchFieldsAt (code.overwritten u bytes).bytes r =
        Bytecode.branchFieldsAt code.bytes r ∧
      Bytecode.branchTargets (code.overwritten u bytes).bytes r =
        Bytecode.branchTargets code.bytes r := by
  obtain ⟨n, hl, hapart⟩ : ∃ n, Bytecode.instructionLength code.bytes r = .ok n ∧
      (r + n ≤ u ∨ u + bytes.length ≤ r) := by
    rcases hr with hr | hr
    · obtain ⟨n, hl⟩ := rewritten.front.exists_length hr
      have hlt := (rewritten.front.mem_bounds hr).2
      exact ⟨n, hl, .inl (rewritten.front.add_length_le hr hl (.inr rfl) hlt)⟩
    · obtain ⟨n, hl⟩ := rewritten.back.exists_length hr
      exact ⟨n, hl, .inr (rewritten.back.mem_bounds hr).1⟩
  have hbytes : ∀ i < n, (code.overwritten u bytes).bytes[r + i]? = code.bytes[r + i]? :=
    fun i hi => Bytecode.getElem?_overwrite_of_outside (by omega)
  obtain ⟨hlength, hrest⟩ := Bytecode.eq_of_bytes hl hbytes
  exact ⟨hlength.trans hl.symm, hrest⟩

/-- The rewritten body is walked over all instructions. -/
theorem walk_written : Walk (code.overwritten u bytes).bytes 0 (before ++ written ++ behind)
    (code.overwritten u bytes).bytes.size := by
  have hsize : (code.overwritten u bytes).bytes.size = code.bytes.size :=
    Bytecode.size_overwrite ..
  rw [hsize]
  exact ((rewritten.front.congr fun r hr => (rewritten.eq_of_mem (.inl hr)).1).trans
    rewritten.inside).trans (rewritten.back.congr fun r hr => (rewritten.eq_of_mem (.inr hr)).1)

/-- All branches are before or behind. -/
theorem branchFields_eq : code.branchFields (before ++ replaced ++ behind) =
    code.branchFields (before ++ behind) := by
  unfold branchFields
  simp only [List.flatMap_append]
  rw [List.flatMap_eq_nil_iff.mpr rewritten.replaced_fields, List.append_nil]

/-- All branches of the rewritten body are those of the body. -/
theorem branchFields_written_eq :
    (code.overwritten u bytes).branchFields (before ++ written ++ behind) =
      code.branchFields (before ++ behind) := by
  unfold branchFields
  simp only [List.flatMap_append]
  rw [List.flatMap_eq_nil_iff.mpr rewritten.written_fields, List.append_nil,
    List.flatMap_congr fun r hr => (rewritten.eq_of_mem (.inl hr)).2.1,
    List.flatMap_congr fun r hr => (rewritten.eq_of_mem (.inr hr)).2.1]

/-- The branches lead where they led. -/
theorem branchTarget_eq {field : BranchField} (hfield : field ∈ code.branchFields (before ++ behind)) :
    Bytecode.branchTarget (code.overwritten u bytes).bytes field =
      Bytecode.branchTarget code.bytes field := by
  obtain ⟨r, hr, hfield⟩ := List.mem_flatMap.mp hfield
  obtain ⟨-, hfields, htargets⟩ := rewritten.eq_of_mem (List.mem_append.mp hr)
  unfold Bytecode.branchTargets at htargets
  rw [hfields] at htargets
  exact List.map_inj_left.mp htargets field hfield

/-- The branches are apart from what is written. -/
theorem apart {field : BranchField} (hfield : field ∈ code.branchFields (before ++ behind)) :
    field.position + field.width ≤ code.bytes.size ∧
      (field.position + field.width ≤ u ∨ u + bytes.length ≤ field.position) := by
  obtain ⟨r, hr, hfield⟩ := List.mem_flatMap.mp hfield
  have hbehind := (Bytecode.source_lt_position hfield).2
  have hroom := rewritten.room
  rcases List.mem_append.mp hr with hr | hr
  · obtain ⟨n, hl⟩ := rewritten.front.exists_length hr
    have hend := (Bytecode.instructionLength_eq_ok_iff.mp hl).1.add_width_le hfield
    have hlast := rewritten.front.add_length_le hr hl (.inr rfl) (rewritten.front.mem_bounds hr).2
    omega
  · obtain ⟨n, hl⟩ := rewritten.back.exists_length hr
    have hend := (Bytecode.instructionLength_eq_ok_iff.mp hl).1.add_width_le hfield
    have hlast := Bytecode.add_instructionLength_le hl
    have hfirst := (rewritten.back.mem_bounds hr).1
    omega

/-- What is written moves with the body. -/
theorem relocated_eq {s : Shift} (hs : s.position ≤ code.bytes.size)
    (hapart : s.position ≤ u ∨ u + bytes.length ≤ s.position) :
    (code.overwritten u bytes).relocated s (code.branchFields (before ++ behind)) =
      (code.relocated s (code.branchFields (before ++ behind))).overwritten (s.start u) bytes := by
  have hpatches : (code.branchFields (before ++ behind)).map
      (Bytecode.relocatedPatch (code.overwritten u bytes).bytes s) =
        (code.branchFields (before ++ behind)).map (Bytecode.relocatedPatch code.bytes s) := by
    refine List.map_congr_left fun field hfield => ?_
    unfold Bytecode.relocatedPatch Bytecode.relocatedOffset
    rw [rewritten.branchTarget_eq hfield]
  have hwithin : ∀ patch ∈ (code.branchFields (before ++ behind)).map
      (Bytecode.relocatedPatch code.bytes s), patch.position + patch.bytes.length ≤
        code.bytes.size ∧ (patch.position + patch.bytes.length ≤ u ∨
          u + bytes.length ≤ patch.position) := by
    refine List.forall_mem_map.mpr fun field hfield => ?_
    have hapart := rewritten.apart hfield
    unfold Bytecode.relocatedPatch
    rwa [BranchField.length_offsetBytes]
  have hbytes : (Bytecode.applyPatches (code.overwritten u bytes).bytes
      ((code.branchFields (before ++ behind)).map
        (Bytecode.relocatedPatch (code.overwritten u bytes).bytes s))).withGap s =
      Bytecode.overwrite ((Bytecode.applyPatches code.bytes
        ((code.branchFields (before ++ behind)).map
          (Bytecode.relocatedPatch code.bytes s))).withGap s) (s.start u) bytes := by
    rw [hpatches]
    generalize (code.branchFields (before ++ behind)).map
      (Bytecode.relocatedPatch code.bytes s) = patches at hwithin
    have hroom := rewritten.room
    have hsize : (Bytecode.applyPatches code.bytes patches).size = code.bytes.size :=
      Bytecode.size_applyPatches ..
    rw [← hsize] at hs hroom
    rw [← Bytecode.withGap_overwrite hs hroom hapart]
    exact congrArg (Bytecode.withGap · s) (Bytecode.applyPatches_overwrite rewritten.room
      (fun patch h => (hwithin patch h).1) fun patch h => (hwithin patch h).2)
  exact congrArg (fun bytes => ({ code with
    bytes
    handlers := code.handlers.map (Handler.shift s)
    attributes := code.attributes.map (Attribute.shift s) } : Code)) hbytes

/-- A gap that does not part what is written moves it along. -/
theorem insertGap_eq {w n : Nat} {exclusive : Bool} (hw : w ≤ code.bytes.size) (hn : 0 < n)
    (hapart : w ≤ u ∨ u + bytes.length ≤ w) :
    (code.overwritten u bytes).insertGap w n exclusive =
      (fun (s, next) => (s, next.overwritten (s.start u) bytes)) <$>
        code.insertGap w n exclusive := by
  have hsize : (code.overwritten u bytes).bytes.size = code.bytes.size :=
    Bytecode.size_overwrite ..
  have hoffset : ∀ field ∈ code.branchFields (before ++ behind),
      Bytecode.relocatedOffset (code.overwritten u bytes).bytes ⟨w, gapLength n, exclusive⟩ field =
        Bytecode.relocatedOffset code.bytes ⟨w, gapLength n, exclusive⟩ field := by
    intro field hfield
    unfold Bytecode.relocatedOffset
    rw [rewritten.branchTarget_eq hfield]
  have hfits : (∀ field ∈ code.branchFields (before ++ behind), field.Fits
      (Bytecode.relocatedOffset (code.overwritten u bytes).bytes ⟨w, gapLength n, exclusive⟩ field)) ↔
        ∀ field ∈ code.branchFields (before ++ behind), field.Fits
          (Bytecode.relocatedOffset code.bytes ⟨w, gapLength n, exclusive⟩ field) :=
    forall₂_congr fun field hfield => by rw [hoffset field hfield]
  rw [Code.insertGap_eq rewritten.walk_written (by rwa [hsize]) hn,
    Code.insertGap_eq rewritten.walk hw hn, rewritten.branchFields_written_eq,
    rewritten.branchFields_eq, hsize, if_congr hfits rfl rfl, rewritten.relocated_eq hw hapart]
  split
  · rfl
  · split <;> rfl

end Rewritten

/-! ## Two loads -/

/-- A load is widened if there is a gap before it and the wide load is written. -/
theorem widenLoad_eq_ok_iff {w : Nat} {i : UInt16} :
    code.widenLoad w i = .ok new ↔
      ∃ opened, code.insertGap w 1 false = .ok (Widening.gap w, opened) ∧
        w + 6 ≤ opened.bytes.size ∧ new = opened.overwritten (w + 3) (wideLoad i) := by
  constructor
  · intro h
    obtain ⟨opened, hinserted, hsize, -, rfl⟩ := exists_of_widenLoad h
    exact ⟨opened, hinserted, hsize, rfl⟩
  · rintro ⟨opened, hinserted, hsize, rfl⟩
    exact bind_eq_ok_iff.mpr ⟨_, hinserted, if_pos hsize⟩

/-- A load is no branch. -/
theorem branchFieldsAt_of_load {bytes : Bytecode}
    (hl : Bytecode.instructionLength bytes p = .ok 2) : Bytecode.branchFieldsAt bytes p = [] := by
  refine List.eq_nil_iff_forall_not_mem.mpr fun field hfield => ?_
  have hbehind := (Bytecode.source_lt_position hfield).2
  have hend := (Bytecode.instructionLength_eq_ok_iff.mp hl).1.add_width_le hfield
  unfold BranchField.width at hend
  split at hend <;> omega

/-- Behind its gap, a load can be written over. -/
theorem Opened.rewritten (opened : Opened (Widening.gap p) starts code mid)
    (walk : Walk code.bytes 0 starts code.bytes.size) (hp : p ∈ starts)
    (hl : Bytecode.instructionLength code.bytes p = .ok 2) (i : UInt16) :
    Rewritten mid (p + 3) (wideLoad i)
      (((Widening.gap p).insertedStarts starts).filter (· < p + 3)) [p + 3, p + 4] [p + 3]
      (((Widening.gap p).insertedStarts starts).filter (p + 4 < ·)) := by
  have hwalk := Bytecode.starts_eq_ok_iff.mp (opened.starts_eq walk (.inl hp))
  have hgap : p + 3 ∈ (Widening.gap p).insertedStarts starts :=
    Shift.mem_insertedStarts.mpr (.inr ⟨Nat.le_add_right p 3, Nat.lt_succ_self (p + 3)⟩)
  have hload : p + 4 ∈ (Widening.gap p).insertedStarts starts := by
    have hstart := (Widening.gap p).start_mem_insertedStarts hp
    rwa [Widening.start_gap, if_pos (Nat.le_refl p)] at hstart
  have hnop : mid.bytes[p + 3]? = some Opcode.nop :=
    opened.gap (p + 3) (Nat.le_add_right p 3) (Nat.lt_succ_self (p + 3))
  have hlater : Bytecode.instructionLength mid.bytes (p + 4) = .ok 2 := by
    obtain ⟨n, hn, hn'⟩ := (opened.instructions p hp).length
    cases hl.symm.trans hn
    rwa [Widening.start_gap, if_pos (Nat.le_refl p)] at hn'
  have hback := hwalk.behind hload hlater
  have hwritten : ∀ j < 3, (mid.overwritten (p + 3) (wideLoad i)).bytes[p + 3 + j]? =
      (wideLoad i)[j]? := fun j hj =>
    Bytecode.getElem?_overwrite_of_inside hj hback.le
  obtain ⟨hlength, hfields, -⟩ := Bytecode.instruction_of_wideLoad hwritten
  refine ⟨(hwalk.cut (.inl hgap)).1, ?_, hback, .step hlength (.stop _), ?_, ?_⟩
  · exact .step (Bytecode.instruction_of_nop hnop).1 (.step hlater (.stop _))
  · have hnone := (Bytecode.instruction_of_nop hnop).2
    simp only [List.forall_mem_cons]
    exact ⟨hnone, branchFieldsAt_of_load hlater, fun _ h => by cases h⟩
  · exact List.forall_mem_singleton.mpr hfields

/-- One more load can be widened after another one as if only the gap of that one were
there. -/
theorem widenLoad_after {w : Nat} {i j : UInt16} {before replaced written behind : List Nat}
    (rewritten : Rewritten code u (wideLoad i) before replaced written behind)
    (hw : w ≤ code.bytes.size) (hapart : w ≤ u ∨ u + 3 ≤ w) :
    (code.overwritten u (wideLoad i)).widenLoad w j = .ok new ↔
      ∃ opened, code.insertGap w 1 false = .ok (Widening.gap w, opened) ∧
        w + 6 ≤ opened.bytes.size ∧
          new = (opened.overwritten ((Widening.gap w).start u) (wideLoad i)).overwritten (w + 3)
            (wideLoad j) := by
  rw [widenLoad_eq_ok_iff, rewritten.insertGap_eq hw Nat.one_pos hapart]
  constructor
  · rintro ⟨opened, hinserted, hsize, rfl⟩
    cases hrun : code.insertGap w 1 false with
    | error e =>
      rw [hrun] at hinserted
      cases hinserted
    | ok result =>
      rw [hrun] at hinserted
      obtain ⟨s, next⟩ := result
      cases hinserted
      exact ⟨next, rfl, by rwa [overwritten, Bytecode.size_overwrite] at hsize, rfl⟩
  · rintro ⟨opened, hinserted, hsize, rfl⟩
    rw [hinserted]
    refine ⟨_, rfl, ?_, rfl⟩
    rwa [overwritten, Bytecode.size_overwrite]

/-- After two loads are widened the body is the same in the other order. -/
theorem widenLoad_twice {i j : UInt16} (walk : Walk code.bytes 0 starts code.bytes.size)
    (hwithin : code.Within) (hp : p ∈ starts) (hq : q ∈ starts) (hne : p ≠ q)
    (hlp : Bytecode.instructionLength code.bytes p = .ok 2)
    (hlq : Bytecode.instructionLength code.bytes q = .ok 2)
    (hfirst : code.widenLoad p i = .ok mid)
    (hsecond : mid.widenLoad ((Widening.gap p).start q) j = .ok new) :
    ∃ mid', code.widenLoad q j = .ok mid' ∧
      mid'.widenLoad ((Widening.gap q).start p) i = .ok new := by
  obtain ⟨opened, hopened, hsize, rfl⟩ := widenLoad_eq_ok_iff.mp hfirst
  have first := opened_of_insertGap walk (.inl hp) hopened
  have rewritten := first.rewritten walk hp hlp i
  -- the two loads do not overlap
  have hapart : p + 2 ≤ q ∨ q + 2 ≤ p := by
    rcases Nat.lt_or_gt_of_ne hne with hlt | hgt
    · exact .inl (walk.add_length_le hp hlp (.inl hq) hlt)
    · exact .inr (walk.add_length_le hq hlq (.inl hp) hgt)
  have hends := And.intro (Bytecode.add_instructionLength_le hlp)
    (Bytecode.add_instructionLength_le hlq)
  have hplace (p q : Nat) : (Widening.gap p).start q = if p ≤ q then q + 4 else q := rfl
  have hgrown : opened.bytes.size = code.bytes.size + 4 := first.size
  obtain ⟨last, hlast, hsize', rfl⟩ := (widenLoad_after rewritten
    (by rw [hplace]; split <;> omega) (by rw [hplace]; split <;> omega)).mp hsecond
  have hwalk := Bytecode.starts_eq_ok_iff.mp (first.starts_eq walk (.inl hp))
  have hgrown' : last.bytes.size = opened.bytes.size + 4 :=
    (opened_of_insertGap hwalk (.inl (Shift.start_mem_insertedStarts _ hq)) hlast).size
  obtain ⟨opened', hopened', hlast'⟩ := insertGap_twice walk hwithin hp hq hne Nat.one_pos
    Nat.one_pos hopened hlast
  have first' := opened_of_insertGap walk (.inl hq) hopened'
  have rewritten' := first'.rewritten walk hq hlq j
  have hgrown'' : opened'.bytes.size = code.bytes.size + 4 := first'.size
  refine ⟨_, widenLoad_eq_ok_iff.mpr ⟨opened', hopened', by omega, rfl⟩, (widenLoad_after rewritten'
    (by rw [hplace]; split <;> omega) (by rw [hplace]; split <;> omega)).mpr
    ⟨last, hlast', by rw [hplace]; split <;> omega, ?_⟩⟩
  -- each wide load is moved by the other gap
  have hp' : (Widening.gap ((Widening.gap p).start q)).start (p + 3) =
      (Widening.gap q).start p + 3 := by
    simp only [hplace]
    split_ifs <;> omega
  have hq' : (Widening.gap ((Widening.gap q).start p)).start (q + 3) =
      (Widening.gap p).start q + 3 := by
    simp only [hplace]
    split_ifs <;> omega
  have hlength (i : UInt16) : (wideLoad i).length = 3 := rfl
  rw [hp', hq']
  refine congrArg (fun bytes => ({ last with bytes } : Code)) (Bytecode.overwrite_comm ?_ ?_ ?_)
  · rw [hplace, hlength]
    split <;> omega
  · rw [hplace, hlength]
    split <;> omega
  · rw [hplace, hplace, hlength, hlength]
    split_ifs <;> omega

/-! ## Loads in turn -/

/-- Widen loads of a body, one after the other. -/
def widenInTurn (loads : List (Nat × UInt16)) (code : Code) : Except Error Code :=
  inTurn (fun _ => 4) (fun p i code => code.widenLoad p i) id loads code

/-- A body in which bytes are patched. -/
def patched (patches : List Patch) (code : Code) : Code :=
  { code with bytes := Bytecode.applyPatches code.bytes patches }

/-- Loads of a body that are to be widened. -/
structure Widenings (place : Nat → Nat) (loads : List (Nat × UInt16)) (code : Code)
    (starts : List Nat) : Prop where
  /-- The body consists of complete instructions. -/
  walk : Walk code.bytes 0 starts code.bytes.size
  /-- The tables refer to nothing behind the end. -/
  within : code.Within
  /-- At each place there is a load. -/
  isLoad : ∀ x ∈ loads, place x.1 ∈ starts ∧
    Bytecode.instructionLength code.bytes (place x.1) = .ok 2
  /-- No two loads have the same place. -/
  nodup : (loads.map fun x => place x.1).Nodup

/-- When one load is widened, the others are still there. -/
theorem Widenings.step {place : Nat → Nat} {i : UInt16} {later : List (Nat × UInt16)}
    (widenings : Widenings place ((p, i) :: later) code starts)
    (h : code.widenLoad (place p) i = .ok new) :
    ∃ starts', Widenings ((Widening.gap (place p)).start ∘ place) later new starts' := by
  obtain ⟨walk, within, hloads, hnodup⟩ := widenings
  obtain ⟨⟨hp, hl⟩, hlater⟩ := List.forall_mem_cons.mp hloads
  obtain ⟨hfresh, hnodup⟩ := List.nodup_cons.mp hnodup
  obtain ⟨opened, hopened, -, rfl⟩ := widenLoad_eq_ok_iff.mp h
  have first := opened_of_insertGap walk (.inl hp) hopened
  have rewritten := first.rewritten walk hp hl i
  have hsize : (opened.overwritten (place p + 3) (wideLoad i)).bytes.size = opened.bytes.size :=
    Bytecode.size_overwrite ..
  obtain ⟨hpositions, hcreated⟩ := first.within (show gapLength 1 ≠ 0 by decide) within
  refine ⟨_, rewritten.walk_written, ⟨?_, ?_⟩, fun x hx => ?_, ?_⟩
  · rw [hsize]
    exact hpositions
  · rw [hsize]
    exact hcreated
  · obtain ⟨hstart, hlx⟩ := hlater x hx
    have hne : place x.1 ≠ place p := fun h => hfresh (List.mem_map.mpr ⟨x, hx, h⟩)
    have hmem := (Widening.gap (place p)).start_mem_insertedStarts hstart
    have hapart : (Widening.gap (place p)).start (place x.1) < place p + 3 ∨
        place p + 4 < (Widening.gap (place p)).start (place x.1) := by
      rw [Widening.start_gap]
      split <;> omega
    obtain ⟨n, hn, hn'⟩ := (first.instructions _ hstart).length
    cases hlx.symm.trans hn
    have hside : (Widening.gap (place p)).start (place x.1) ∈
        ((Widening.gap (place p)).insertedStarts starts).filter (· < place p + 3) ∨
          (Widening.gap (place p)).start (place x.1) ∈
            ((Widening.gap (place p)).insertedStarts starts).filter (place p + 4 < ·) :=
      hapart.imp (fun h => List.mem_filter.mpr ⟨hmem, decide_eq_true h⟩)
        fun h => List.mem_filter.mpr ⟨hmem, decide_eq_true h⟩
    refine ⟨?_, (rewritten.eq_of_mem hside).1.trans hn'⟩
    rcases hside with h | h
    · exact List.mem_append_left _ (List.mem_append_left _ h)
    · exact List.mem_append_right _ h
  · have hmoved := List.Nodup.map (Widening.gap (place p)).start_injective hnodup
    rwa [List.map_map] at hmoved

/-- Loads can be widened in any order. -/
theorem Widenings.inTurn_of_perm {loads loads' : List (Nat × UInt16)} (h : loads.Perm loads')
    (widenings : Widenings id loads code starts) (hrun : widenInTurn loads code = .ok new) :
    widenInTurn loads' code = .ok new := by
  refine Code.inTurn_of_perm (fun place loads code => ∃ starts, Widenings place loads code starts)
    ?_ ?_ ?_ h ⟨starts, widenings⟩ hrun
  · rintro place loads loads' code hperm ⟨starts, walk, within, hloads, hnodup⟩
    exact ⟨starts, walk, within, fun x hx => hloads x (hperm.mem_iff.mpr hx),
      (hperm.map _).nodup_iff.mp hnodup⟩
  · rintro place p i later code next ⟨starts, widenings⟩ hchange
    exact widenings.step hchange
  · rintro place p i q j later code mid new ⟨starts, walk, within, hloads, hnodup⟩ hfirst hsecond
    obtain ⟨⟨hp, hlp⟩, hlater⟩ := List.forall_mem_cons.mp hloads
    obtain ⟨hq, hlq⟩ := (List.forall_mem_cons.mp hlater).1
    have hne : place p ≠ place q := fun h =>
      (List.nodup_cons.mp hnodup).1 (List.mem_cons.mpr (.inl h))
    exact widenLoad_twice walk within hp hq hne hlp hlq hfirst hsecond

/-- What copying widens are loads, from back to front. -/
theorem widenings_operandChanges (index : UInt16 → UInt16)
    (walk : Walk code.bytes 0 starts code.bytes.size) (hwithin : code.Within) :
    Widenings id (Bytecode.operandChanges index code.bytes starts).widened
        (code.patched (Bytecode.operandChanges index code.bytes starts).patches) starts ∧
      (Bytecode.operandChanges index code.bytes starts).widened.Pairwise
        fun x y => y.1 < x.1 := by
  have loads := loads_filter_needsWide index walk
  have horder : (Bytecode.operandChanges index code.bytes starts).widened.Pairwise
      fun x y => y.1 < x.1 := by
    unfold Bytecode.operandChanges
    rw [List.pairwise_map, List.filter_reverse, List.pairwise_reverse]
    exact loads.order
  have hmem : ∀ x ∈ (Bytecode.operandChanges index code.bytes starts).widened,
      x.1 ∈ starts.filter (Bytecode.NeedsWide index code.bytes) := by
    intro x hx
    unfold Bytecode.operandChanges at hx
    obtain ⟨p, hp, rfl⟩ := List.mem_map.mp hx
    rwa [List.filter_reverse, List.mem_reverse] at hp
  have hwithin : (code.patched (Bytecode.operandChanges index code.bytes starts).patches).Within := by
    obtain ⟨hpositions, hcreated⟩ := hwithin
    have hsize := Bytecode.size_applyPatches code.bytes
      (Bytecode.operandChanges index code.bytes starts).patches
    exact ⟨fun p hp => hsize ▸ hpositions p hp, fun p hp => hsize ▸ hcreated p hp⟩
  refine ⟨⟨walk_patched index walk, hwithin, fun x hx => ?_, ?_⟩, horder⟩
  · exact ⟨loads.starts _ (hmem x hx), loads.length _ (hmem x hx)⟩
  · exact List.pairwise_map.mpr (horder.imp Nat.ne_of_gt)

/-- Gaps for whatever is at two instructions, in either order. -/
theorem withGap_swap {m n : Nat} {exclusive : Bool}
    (walk : Walk code.bytes 0 starts code.bytes.size) (hwithin : code.Within)
    (hp : p ∈ starts) (hq : q ∈ starts) (hne : p ≠ q) (hm : 0 < m) (hn : 0 < n)
    (h : (code.withGap exclusive p m >>= fun mid =>
      mid.withGap exclusive (Shift.start ⟨p, gapLength m, exclusive⟩ q) n) = .ok new) :
    (code.withGap exclusive q n >>= fun mid =>
      mid.withGap exclusive (Shift.start ⟨q, gapLength n, exclusive⟩ p) m) = .ok new := by
  obtain ⟨mid, hfirst, hsecond⟩ := bind_eq_ok_iff.mp h
  obtain ⟨mid', hfirst', hsecond'⟩ := insertGap_twice walk hwithin hp hq hne hm hn
    (withGap_eq_ok_iff.mp hfirst) (withGap_eq_ok_iff.mp hsecond)
  exact bind_eq_ok_iff.mpr
    ⟨mid', withGap_eq_ok_iff.mpr hfirst', withGap_eq_ok_iff.mpr hsecond'⟩

/-- In a body that can be walked, and whose tables refer to nothing behind its end, gaps
can be inserted in any order. For two instructions, it is the same whether the later one
gets its gap first, or after it has been moved by the gap of the other one: there is the
same new body, or in neither order there is one. So it is for any number of instructions,
and when copying widens loads from back to front. -/
theorem gaps_in_any_order (hstarts : Bytecode.starts code.bytes = .ok starts)
    (hwithin : code.Within) :
    (∀ p ∈ starts, ∀ q ∈ starts, p < q → ∀ m n, 0 < m → 0 < n → ∀ exclusive new,
      (code.withGap exclusive q n >>= fun mid => mid.withGap exclusive p m) = .ok new ↔
        (code.withGap exclusive p m >>= fun mid =>
          mid.withGap exclusive (q + (m + 3) / 4 * 4) n) = .ok new) ∧
      (∀ gaps backToFront : List (Nat × Nat), (∀ x ∈ gaps, x.1 ∈ starts ∧ 0 < x.2) →
        gaps.Perm backToFront → backToFront.Pairwise (fun x y => y.1 < x.1) →
          ∀ exclusive new,
            inTurn gapLength (fun p n code => code.withGap exclusive p n) id gaps code = .ok new ↔
              backToFront.foldlM (fun code x => code.withGap exclusive x.1 x.2) code = .ok new) ∧
      (∀ wasRead dest, ConstantPool.Reachable wasRead dest → ∀ source names changes next,
        (Bytecode.copyOperands code.bytes source names).runOn dest = (.ok changes, next) →
          ∀ loads, loads.Perm changes.widened → ∀ new,
            widenInTurn loads (code.patched changes.patches) = .ok new ↔
              code.changeOperands changes = .ok new) := by
  have walk := Bytecode.starts_eq_ok_iff.mp hstarts
  refine ⟨fun p hp q hq hlt m n hm hn exclusive new => ?_,
    fun gaps backToFront hgaps hperm horder exclusive new => ?_,
    fun wasRead dest hdest source names changes next hcopied loads hperm new => ?_⟩
  · have hstay : Shift.start ⟨q, gapLength n, exclusive⟩ p = p := if_neg (Nat.not_le_of_lt hlt)
    have hmove : Shift.start ⟨p, gapLength m, exclusive⟩ q = q + gapLength m :=
      if_pos (Nat.le_of_lt hlt)
    constructor
    · intro h
      have hswap := withGap_swap walk hwithin hq hp (Nat.ne_of_gt hlt) hn hm (hstay.symm ▸ h)
      rwa [hmove] at hswap
    · intro h
      have hswap := withGap_swap walk hwithin hp hq (Nat.ne_of_lt hlt) hm hn (hmove.symm ▸ h)
      rwa [hstay] at hswap
  · have hnodup : (backToFront.map fun x => id x.1).Nodup :=
      List.pairwise_map.mpr (horder.imp Nat.ne_of_gt)
    have hlast : Gaps id backToFront code starts :=
      ⟨walk, hwithin, fun x hx => hgaps x (hperm.mem_iff.mpr hx), hnodup⟩
    have hfirst : Gaps id gaps code starts :=
      ⟨walk, hwithin, hgaps, (hperm.map _).nodup_iff.mpr hnodup⟩
    have hturn : inTurn gapLength (fun p n code => code.withGap exclusive p n) id backToFront code =
        backToFront.foldlM (fun code x => code.withGap exclusive x.1 x.2) code :=
      inTurn_eq_foldlM horder fun _ _ => rfl
    rw [← hturn]
    exact ⟨Gaps.inTurn_of_perm hperm hfirst, Gaps.inTurn_of_perm hperm.symm hlast⟩
  · have hchanges : changes =
        Bytecode.operandChanges (source.copiedIndex names next) code.bytes starts := by
      have hcopy := ((Bytecode.lasting_copyOperands source names walk).holds hdest.consistent
        hcopied .refl).changes
      simpa only [List.append_nil] using hcopy
    obtain ⟨hwidenings, horder⟩ := widenings_operandChanges (source.copiedIndex names next) walk
      hwithin
    rw [← hchanges] at hwidenings horder
    have hother : Widenings id loads (code.patched changes.patches) starts :=
      ⟨hwidenings.walk, hwidenings.within, fun x hx =>
        hwidenings.isLoad x (hperm.mem_iff.mp hx), (hperm.map _).nodup_iff.mpr hwidenings.nodup⟩
    have hcopy : widenInTurn changes.widened (code.patched changes.patches) =
        code.changeOperands changes := inTurn_eq_foldlM horder fun _ _ => rfl
    rw [← hcopy]
    exact ⟨Widenings.inTurn_of_perm hperm hother, Widenings.inTurn_of_perm hperm.symm hwidenings⟩

/-- The tables of a loop that creates objects stay with it whichever of two gaps is
inserted first. -/
theorem gaps_in_any_order_creationLoop :
    (Bytecode.starts Cursor.creationLoop.bytes = .ok [0, 3, 4] ∧ Cursor.creationLoop.Within) ∧
      ∃ new, (Cursor.creationLoop.withGap false 3 5 >>= fun mid => mid.withGap false 0 1) =
          .ok new ∧
        (Cursor.creationLoop.withGap false 0 1 >>= fun mid => mid.withGap false 7 5) = .ok new := by
  have hstarts : Bytecode.starts Cursor.creationLoop.bytes = .ok [0, 3, 4] := by decide +kernel
  have hwithin : Cursor.creationLoop.Within := ⟨by decide, by decide⟩
  have hrun : ((Cursor.creationLoop.withGap false 3 5 >>= fun mid =>
      mid.withGap false 0 1).toOption).isSome = true := by decide +kernel
  obtain ⟨hgaps, -, -⟩ := gaps_in_any_order hstarts hwithin
  have hsame := hgaps 0 (by decide) 3 (by decide) (by decide) 1 5 (by decide) (by decide) false
  cases hnew : (Cursor.creationLoop.withGap false 3 5 >>= fun mid => mid.withGap false 0 1) with
  | error e =>
    rw [hnew] at hrun
    cases hrun
  | ok new => exact ⟨⟨hstarts, hwithin⟩, new, rfl, (hsame new).mp hnew⟩

end Code

end JvmClass
