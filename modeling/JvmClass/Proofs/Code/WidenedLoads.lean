import JvmClass.Proofs.Code.Operands
import JvmClass.Proofs.Code.Widening

/-!
# Widened loads

What code looks like after some of its loads have got their wide form. Each of
them comes behind three instructions that do nothing, and all other instructions
are where they have been moved to, with branches to where their targets have
gone. Widening one more load, before all others, leads from such code to such
code again.
-/

namespace JvmClass

namespace Bytecode

variable {a old new : Bytecode} {p q n : Nat} {f : Int → Int} {starts : List Nat}

/-- A moved instruction refers to the same constant. -/
theorem Moved.poolOperand?_eq (h : Moved f old new p q) :
    new.poolOperand? q = old.poolOperand? p := by
  obtain ⟨n, hl, -⟩ := h.length
  have hopcode : new.opcodeAt q = old.opcodeAt p := by
    unfold opcodeAt
    rw [h.opcode_eq]
  by_cases hwidth : 0 < Opcode.poolWidth (old.opcodeAt p)
  · obtain ⟨-, -, -, -, -, -, hfields⟩ := (instructionLength_eq_ok_iff.mp hl).1.of_poolWidth hwidth
    have hroom := poolWidth_lt hl
    have hbyte (i : Nat) (hi : i < Opcode.poolWidth (old.opcodeAt p)) :
        new[q + 1 + i]? = old[p + 1 + i]? := by
      rw [Nat.add_assoc, Nat.add_assoc]
      exact h.byte_eq hl hfields (by omega)
    unfold Opcode.poolWidth at hwidth hbyte
    unfold poolOperand?
    rw [hopcode]
    by_cases hldc : old.opcodeAt p = Opcode.ldc
    · rw [if_pos hldc] at hbyte
      rw [if_pos hldc, if_pos hldc, ← Nat.add_zero (q + 1), hbyte 0 Nat.zero_lt_one,
        Nat.add_zero]
    · rw [if_neg hldc] at hwidth hbyte
      rw [if_neg hldc, if_neg hldc]
      by_cases hpool : Opcode.hasPoolIndex (old.opcodeAt p) = true
      · rw [if_pos hpool] at hbyte
        rw [if_pos hpool, if_pos hpool, u16At?_congr hbyte]
      · rw [if_neg hpool, if_neg hpool]
  · rw [poolOperand?_eq_none hwidth, poolOperand?_eq_none (by rw [hopcode]; exact hwidth)]

/-- Walking new code over what each instruction has become. -/
theorem Walk.flatMap {first last : Nat} (walk : Walk old first starts last) (place : Nat → Nat)
    (row : Nat → List Nat)
    (h : ∀ p ∈ starts, ∀ n, old.instructionLength p = .ok n →
      Walk new (place p) (row p) (place (p + n))) :
    Walk new (place first) (starts.flatMap row) (place last) := by
  induction walk with
  | stop => exact .stop _
  | @step position length last starts hl rest ih =>
    rw [List.flatMap_cons]
    exact (h position List.mem_cons_self length hl).trans
      (ih fun p hp => h p (List.mem_cons_of_mem _ hp))

/-- The bytes of a wide load. -/
def wideLoad (i : UInt16) : List UInt8 := Opcode.ldcWide :: Codec.bytesOfU16 i

/-- A wide load is complete, is no branch, and refers to its constant. -/
theorem instruction_of_wideLoad {i : UInt16} (h : ∀ j < 3, new[q + j]? = (wideLoad i)[j]?) :
    new.instructionLength q = .ok 3 ∧ new.branchFieldsAt q = [] ∧
      new.poolOperand? q = some i := by
  have byte : new[q]? = some Opcode.ldcWide := h 0 (by omega)
  have layout : Layout.ofOpcode Opcode.ldcWide = .fixed 2 := by decide
  have hlast : q + 2 < new.size := by
    have hbyte := h 2 (by omega)
    exact (Array.getElem?_eq_some_iff.mp hbyte).1
  have shape : Shape new q 3 := .fixed byte layout
  obtain ⟨-, -, -, -, -, -, hfields⟩ := shape.of_poolWidth (by rw [opcodeAt_eq byte]; decide)
  refine ⟨instructionLength_eq_ok_iff.mpr ⟨shape, hlast⟩, hfields, ?_⟩
  unfold poolOperand?
  rw [opcodeAt_eq byte, if_neg (by decide), if_pos (by decide)]
  refine u16At?_of_bytes fun j hj => ?_
  have hbyte := h (1 + j) (by omega)
  rw [← Nat.add_assoc] at hbyte
  rw [hbyte, Nat.add_comm 1 j]
  rfl

/-! ## Code with widened loads -/

/-- Some of the instructions of code, in order, which are loads of a constant. -/
structure Loads (code : Bytecode) (starts loads : List Nat) : Prop where
  /-- They are in order. -/
  order : loads.Pairwise (· < ·)
  /-- They are instructions. -/
  starts : ∀ p ∈ loads, p ∈ starts
  /-- They are loads. -/
  length : ∀ p ∈ loads, code.instructionLength p = .ok 2

/-- The last ones of some loads. -/
theorem Loads.of_append {before loads : List Nat} (h : Loads a starts (before ++ loads)) :
    Loads a starts loads where
  order := (List.pairwise_append.mp h.order).2.1
  starts p hp := h.starts p (List.mem_append_right _ hp)
  length p hp := h.length p (List.mem_append_right _ hp)

/-- All loads but the first one. -/
theorem Loads.tail {w : Nat} {loads : List Nat} (h : Loads a starts (w :: loads)) :
    Loads a starts loads :=
  Loads.of_append (show Loads a starts ([w] ++ loads) from h)

/-- The first load lies before the others. -/
theorem Loads.lt {w : Nat} {loads : List Nat} (h : Loads a starts (w :: loads)) :
    ∀ q ∈ loads, w < q := (List.pairwise_cons.mp h.order).1

/-- The first load has not been moved by the others. -/
theorem Loads.mem_places {w : Nat} {loads : List Nat} (h : Loads a starts (w :: loads)) :
    w ∈ starts.flatMap (Widening.places loads) := by
  refine List.mem_flatMap.mpr ⟨w, h.starts w List.mem_cons_self, ?_⟩
  unfold Widening.places
  rw [Widening.target_eq_self fun q hq => Nat.le_of_lt (h.lt q hq)]
  exact List.mem_range'_1.mpr ⟨Nat.le_refl w, by split <;> omega⟩

/-- New code is old code with some of its loads widened. -/
structure Widened (index : Nat → UInt16) (starts widened : List Nat) (old new : Bytecode) :
    Prop where
  /-- It is longer by the gaps. -/
  size : new.size = Widening.target widened old.size
  /-- Other instructions are moved. -/
  kept : ∀ p ∈ starts, p ∉ widened →
    Moved (Widening.branchTarget widened) old new p (Widening.home widened p)
  /-- Three instructions before a widened load do nothing. -/
  nops : ∀ p ∈ widened, ∀ i < 3, new[Widening.target widened p + i]? = some Opcode.nop
  /-- A widened load is a wide load. -/
  loads : ∀ p ∈ widened, ∀ i < 3, new[Widening.home widened p + i]? = (wideLoad (index p))[i]?

section Widened

variable {index : Nat → UInt16} {widened : List Nat}

/-- Code in which no load is widened yet. -/
theorem widened_nil (walk : Walk old 0 starts old.size) : Widened index starts [] old old := by
  have hnone (p : Nat) : p ∉ [] := List.not_mem_nil
  refine ⟨rfl, fun p hp _ => ?_, fun p hp => absurd hp (hnone p), fun p hp => absurd hp (hnone p)⟩
  obtain ⟨n, hl⟩ := walk.exists_length hp
  rw [Widening.branchTarget_nil]
  exact moved_self hl

/-- A reference behind an instruction goes behind what the instruction has
become. -/
theorem Walk.target_add (walk : Walk old 0 starts old.size) (loads : Loads old starts widened)
    (hp : p ∈ starts) (hl : old.instructionLength p = .ok n) :
    Widening.target widened (p + n) =
      Widening.target widened p + n + if p ∈ widened then 4 else 0 := by
  have hone := one_le_instructionLength hl
  have hcount := Widening.countP_lt_add (loads.order.imp Nat.ne_of_lt) hone fun q hq hlt => by
    by_contra hgt
    have hnext := walk.add_length_le hp hl (.inl (loads.starts q hq)) (Nat.lt_of_not_le hgt)
    omega
  unfold Widening.target
  rw [hcount]
  split <;> omega

/-- New code is walked over what every instruction has become. -/
theorem Widened.walk (widens : Widened index starts widened old new)
    (walk : Walk old 0 starts old.size) (loads : Loads old starts widened) :
    Walk new 0 (starts.flatMap (Widening.places widened)) new.size := by
  have hfirst : Widening.target widened 0 = 0 := Widening.target_eq_self fun q _ => Nat.zero_le q
  have hwalk : Walk new (Widening.target widened 0) (starts.flatMap (Widening.places widened))
      (Widening.target widened old.size) := walk.flatMap _ _ fun p hp n hl => ?_
  · rw [hfirst, ← widens.size] at hwalk
    exact hwalk
  · rw [walk.target_add loads hp hl]
    unfold Widening.places
    by_cases hw : p ∈ widened
    · cases hl.symm.trans (loads.length p hw)
      have hhome : Widening.home widened p = Widening.target widened p + 3 := by
        unfold Widening.home
        rw [if_pos hw]
      have hload := (instruction_of_wideLoad (widens.loads p hw)).1
      rw [hhome] at hload
      rw [if_pos hw, if_pos hw, List.range'_concat]
      exact (Walk.nops (widens.nops p hw)).trans (.step hload (.stop _))
    · obtain ⟨m, hm, hnew⟩ := (widens.kept p hp hw).length
      cases hl.symm.trans hm
      unfold Widening.home at hnew
      rw [if_neg hw] at hnew
      rw [if_neg hw, if_neg hw]
      exact .step hnew (.stop _)

end Widened

end Bytecode

/-! ## One more load -/

namespace Code

open Bytecode (Walk Loads Widened Relocated Moved wideLoad)

/-- Widening a load inserts a gap of four bytes before it, and writes the wide load
over the last byte of the gap and the old load. -/
theorem exists_of_widenLoad {code next : Code} {w : Nat} {i : UInt16}
    (h : code.widenLoad w i = .ok next) :
    ∃ opened, code.insertGap w 1 false = .ok (Widening.gap w, opened) ∧
      w + 6 ≤ opened.bytes.size ∧ code.bytes.size + 4 ≤ 65535 ∧
      next = { opened with bytes := Bytecode.overwrite opened.bytes (w + 3) (wideLoad i) } := by
  obtain ⟨⟨s, opened⟩, hinserted, h⟩ := bind_eq_ok_iff.mp h
  obtain ⟨rfl, ⟨hzero, -⟩ | ⟨-, hroom, -⟩⟩ := insertGap_cases hinserted
  · cases hzero
  · refine ⟨opened, hinserted, ?_⟩
    have hwritten : opened.write (w + 3) (wideLoad i) = .ok next := h
    unfold write at hwritten
    split at hwritten
    · next hsize =>
      cases hwritten
      exact ⟨hsize, hroom, rfl⟩
    · cases hwritten

section Step

variable {index : Nat → UInt16} {starts widened : List Nat} {old : Bytecode} {mid next : Code}
  {w : Nat} (walk : Walk old 0 starts old.size) (loads : Loads old starts (w :: widened))
  (widens : Widened index starts widened old mid.bytes)
  (h : mid.widenLoad w (index w) = .ok next)

include walk loads widens h

/-- Widening the next load opens the body and writes behind the gap. -/
theorem opened_of_widenLoad : ∃ opened,
    Opened (Widening.gap w) (starts.flatMap (Widening.places widened)) mid opened ∧
      w + 6 ≤ opened.bytes.size ∧ mid.bytes.size + 4 ≤ 65535 ∧ next = { opened with
        bytes := Bytecode.overwrite opened.bytes (w + 3) (wideLoad (index w)) } := by
  obtain ⟨opened, hinserted, hsize, hroom, hnext⟩ := exists_of_widenLoad h
  have hwalk := widens.walk walk loads.tail
  exact ⟨opened, opened_of_insertGap hwalk (.inl loads.mem_places) hinserted, hsize,
    hroom, hnext⟩

/-- Of code with widened loads, all instructions but the next load are relocated when
this load is widened. -/
theorem relocated_of_widenLoad {q : Nat} (hq : q ∈ starts.flatMap (Widening.places widened))
    (hne : q ≠ w) : Relocated (Widening.gap w) mid.bytes next.bytes q := by
  obtain ⟨opened, hopened, hsize, -, rfl⟩ := opened_of_widenLoad walk loads widens h
  have hwalk := widens.walk walk loads.tail
  have hplace := loads.mem_places
  have hload : Bytecode.instructionLength mid.bytes w = .ok 2 := by
    have hnot : w ∉ widened := fun hin => Nat.lt_irrefl w (loads.lt w hin)
    obtain ⟨n, hl, hnew⟩ := (widens.kept w (loads.starts w List.mem_cons_self) hnot).length
    rw [Widening.home_eq_self loads.lt] at hnew
    cases hl.symm.trans (loads.length w List.mem_cons_self)
    exact hnew
  obtain ⟨n, hl⟩ := hwalk.exists_length hq
  refine (hopened.instructions q hq).congr hl (fun _ _ => rfl) fun i hi =>
    Bytecode.getElem?_overwrite_of_outside ?_
  show (Widening.gap w).start q + i < w + 3 ∨ w + 3 + 3 ≤ (Widening.gap w).start q + i
  rw [Widening.start_gap]
  rcases Nat.lt_or_gt_of_ne hne with hlt | hgt
  · have hend := hwalk.add_length_le hq hl (.inl hplace) hlt
    rw [if_neg (by omega)]
    omega
  · have hbehind := hwalk.add_length_le hplace hload (.inl hq) hgt
    rw [if_pos (by omega)]
    omega

/-- The bytes behind the next load move by four, but for those of distances. -/
theorem getElem?_of_widenLoad {q n i : Nat}
    (hq : q ∈ starts.flatMap (Widening.places widened)) (hlt : w < q)
    (hl : Bytecode.instructionLength mid.bytes q = .ok n) (hi : i < n)
    (hfree : ¬ Bytecode.IsOffsetByte mid.bytes q (q + i)) :
    next.bytes[q + 4 + i]? = mid.bytes[q + i]? := by
  have hrelocated := relocated_of_widenLoad walk loads widens h hq (Nat.ne_of_gt hlt)
  have hbyte := hrelocated.bytes n hl i hi hfree
  rw [Widening.start_gap, if_pos (Nat.le_of_lt hlt)] at hbyte
  exact hbyte

/-- The body is longer by the gap. -/
theorem size_of_widenLoad : next.bytes.size = Widening.target (w :: widened) old.size := by
  obtain ⟨opened, hopened, -, -, rfl⟩ := opened_of_widenLoad walk loads widens h
  have hinside := (walk.mem_bounds (loads.starts w List.mem_cons_self)).2
  rw [Bytecode.size_overwrite, hopened.size, widens.size,
    Widening.target_cons_of_lt loads.lt hinside]
  rfl

/-- An instruction other than a widened load is moved. -/
theorem moved_of_widenLoad {p : Nat} (hp : p ∈ starts) (hnot : p ∉ w :: widened) :
    Moved (Widening.branchTarget (w :: widened)) old next.bytes p
      (Widening.home (w :: widened) p) := by
  obtain ⟨hne, hnot⟩ := not_or.mp fun h => hnot (List.mem_cons.mpr h)
  have hhome := Widening.home_of_not_mem widened hnot
  have hplace : Widening.home widened p ∈ starts.flatMap (Widening.places widened) := by
    rw [hhome]
    refine List.mem_flatMap.mpr ⟨p, hp, List.mem_range'_1.mpr ⟨Nat.le_refl _, ?_⟩⟩
    split <;> omega
  have hother : Widening.home widened p ≠ w := by
    rw [hhome]
    exact Widening.target_ne loads.lt hne
  have hroute : (Widening.gap w).branchTarget ∘ Widening.branchTarget widened =
      Widening.branchTarget (w :: widened) :=
    funext fun t => (Widening.branchTarget_cons loads.lt t).symm
  have hrelocated := relocated_of_widenLoad walk loads widens h hplace hother
  have hmoved := (widens.kept p hp hnot).trans (hrelocated.moved (Widening.gap_mod_four w))
  rw [hroute, ← Widening.home_cons_of_ne loads.lt hne] at hmoved
  exact hmoved

/-- The instructions before the widened loads do nothing. -/
theorem nops_of_widenLoad {p i : Nat} (hp : p ∈ w :: widened) (hi : i < 3) :
    next.bytes[Widening.target (w :: widened) p + i]? = some Opcode.nop := by
  rcases List.mem_cons.mp hp with rfl | hp
  · obtain ⟨opened, hopened, -, -, rfl⟩ := opened_of_widenLoad walk loads widens h
    rw [Widening.target_cons_self loads.lt,
      Bytecode.getElem?_overwrite_of_outside (.inl (by omega))]
    refine hopened.gap _ (Nat.le_add_right ..) ?_
    show p + i < p + 4
    omega
  · have hlt := loads.lt p hp
    have hbehind := Widening.target_bounds widened p
    have hplace : Widening.target widened p + i ∈ starts.flatMap (Widening.places widened) := by
      refine List.mem_flatMap.mpr ⟨p, loads.tail.starts p hp, List.mem_range'_1.mpr ⟨by omega, ?_⟩⟩
      rw [if_pos hp]
      omega
    obtain ⟨n, hl⟩ := (widens.walk walk loads.tail).exists_length hplace
    have hbyte := getElem?_of_widenLoad walk loads widens h hplace (by omega) hl
      (Bytecode.one_le_instructionLength hl) (Bytecode.not_isOffsetByte_self _ _)
    simp only [Nat.add_zero] at hbyte
    rw [widens.nops p hp i hi] at hbyte
    rw [Widening.target_cons_of_lt loads.lt hlt, Nat.add_right_comm]
    exact hbyte

/-- The widened loads are wide loads. -/
theorem wideLoads_of_widenLoad {p i : Nat} (hp : p ∈ w :: widened) (hi : i < 3) :
    next.bytes[Widening.home (w :: widened) p + i]? = (wideLoad (index p))[i]? := by
  rcases List.mem_cons.mp hp with rfl | hp
  · obtain ⟨opened, -, hsize, -, rfl⟩ := opened_of_widenLoad walk loads widens h
    rw [Widening.home_cons_self loads.lt]
    exact Bytecode.getElem?_overwrite_of_inside hi hsize
  · have hlt := loads.lt p hp
    have hbehind := Widening.target_bounds widened p
    have hhome := Widening.home_of_mem widened hp
    have hplace : Widening.home widened p ∈ starts.flatMap (Widening.places widened) := by
      rw [hhome]
      refine List.mem_flatMap.mpr ⟨p, loads.tail.starts p hp, List.mem_range'_1.mpr ⟨by omega, ?_⟩⟩
      rw [if_pos hp]
      omega
    obtain ⟨hl, hfields, -⟩ := Bytecode.instruction_of_wideLoad (widens.loads p hp)
    have hfree : ¬ Bytecode.IsOffsetByte mid.bytes (Widening.home widened p)
        (Widening.home widened p + i) := by
      rintro ⟨field, hfield, -⟩
      rw [hfields] at hfield
      cases hfield
    have hbyte := getElem?_of_widenLoad walk loads widens h hplace (by omega) hl hi hfree
    rw [widens.loads p hp i hi] at hbyte
    rw [Widening.home_of_mem _ (List.mem_cons_of_mem _ hp),
      Widening.target_cons_of_lt loads.lt hlt]
    rw [hhome] at hbyte
    rw [← hbyte]

/-- Widening the next load leads to code with one more widened load. -/
theorem widened_of_widenLoad : Widened index starts (w :: widened) old next.bytes where
  size := size_of_widenLoad walk loads widens h
  kept _ hp hnot := moved_of_widenLoad walk loads widens h hp hnot
  nops _ hp _ hi := nops_of_widenLoad walk loads widens h hp hi
  loads _ hp _ hi := wideLoads_of_widenLoad walk loads widens h hp hi

end Step

end Code

end JvmClass
