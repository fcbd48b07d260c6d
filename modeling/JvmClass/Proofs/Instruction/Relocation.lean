import JvmClass.Proofs.Instruction.Patches

/-!
# Relocated instructions

What making room in code does to its instructions. An instruction that is moved
by a gap keeps its length and all bytes that are no part of a distance, and its
branches lead to where the instructions that they led to are now. The starts of
the new code are the old ones, moved, and one for every byte of the gap.
-/

namespace JvmClass.Bytecode

variable {code old new : Bytecode} {s : Shift} {starts : List Nat} {p n : Nat}

/-! ## Gaps -/

/-- Code with a gap of instructions that do nothing. -/
def withGap (code : Bytecode) (s : Shift) : Bytecode :=
  code.extract 0 s.position ++ Array.replicate s.gap Opcode.nop ++
    code.extract s.position code.size

/-- A gap makes code longer by its length. -/
theorem size_withGap (hs : s.position ≤ code.size) :
    (code.withGap s).size = code.size + s.gap := by
  unfold withGap
  simp only [Array.size_append, Array.size_extract, Array.size_replicate]
  omega

/-- The bytes of the gap do nothing. -/
theorem getElem?_withGap_of_inside (hs : s.position ≤ code.size) {i : Nat}
    (hi : s.position ≤ i) (hi' : i < s.position + s.gap) :
    (code.withGap s)[i]? = some Opcode.nop := by
  unfold withGap
  rw [Array.getElem?_append_left (by simp; omega), Array.getElem?_append_right (by simp; omega),
    Array.getElem?_replicate, if_pos (by simp; omega)]

/-- All other bytes move with the instructions. -/
theorem getElem?_withGap_start (hs : s.position ≤ code.size) (i : Nat) :
    (code.withGap s)[s.start i]? = code[i]? := by
  unfold withGap Shift.start
  split
  · next hbehind =>
    rw [Array.getElem?_append_right (by simp; omega), Array.getElem?_extract]
    simp only [Array.size_append, Array.size_extract, Array.size_replicate]
    split
    · congr 1
      omega
    · exact (Array.getElem?_eq_none (by omega)).symm
  · next hbefore =>
    rw [Array.getElem?_append_left (by simp; omega), Array.getElem?_append_left (by simp; omega),
      Array.getElem?_extract, if_pos (by omega), Nat.zero_add]

/-! ## Patched instructions -/

/-- What relocation leaves of one instruction: bytes outside the fields are as
they were, and the fields hold the new distances. -/
structure PatchedInstruction (s : Shift) (old patched : Bytecode) (p n : Nat) : Prop where
  /-- Other bytes are not changed. -/
  bytes : ∀ i < n, ¬ old.IsOffsetByte p (p + i) → patched[p + i]? = old[p + i]?
  /-- The distances are those for the shift. -/
  fields : ∀ field ∈ old.branchFieldsAt p, ∀ i < field.width,
    patched[field.position + i]? = (field.offsetBytes (old.relocatedOffset s field))[i]?

/-- The fields on a walk are in order and do not overlap. -/
theorem Walk.pairwise_fields {first last : Nat} (walk : Walk code first starts last) :
    (starts.flatMap code.branchFieldsAt).Pairwise
      fun f g => f.position + f.width ≤ g.position := by
  induction walk with
  | stop => exact .nil
  | step hl rest ih =>
    have hshape := (instructionLength_eq_ok_iff.mp hl).1
    rw [List.flatMap_cons]
    refine List.pairwise_append.mpr ⟨hshape.pairwise_branchFieldsAt, ih, ?_⟩
    intro f hf g hg
    obtain ⟨q, hq, hg⟩ := List.mem_flatMap.mp hg
    have hend := hshape.add_width_le hf
    have hnext := (rest.mem_bounds hq).1
    have hbegin := (source_lt_position hg).2
    omega

/-- Relocation leaves every instruction on a walk as it should. -/
theorem Walk.patchedInstruction (walk : Walk old 0 starts old.size) (hp : p ∈ starts)
    (hl : old.instructionLength p = .ok n) :
    PatchedInstruction s old (old.applyPatches
      ((starts.flatMap old.branchFieldsAt).map (old.relocatedPatch s))) p n := by
  have hshape := (instructionLength_eq_ok_iff.mp hl).1
  have hsize := add_instructionLength_le hl
  constructor
  · intro i hi hfree
    refine getElem?_applyPatches_of_outside fun patch hpatch => ?_
    obtain ⟨field, hfield, rfl⟩ := List.mem_map.mp hpatch
    obtain ⟨q, hq, hfield⟩ := List.mem_flatMap.mp hfield
    have hbegin := (source_lt_position hfield).2
    simp only [relocatedPatch, BranchField.length_offsetBytes]
    -- fields of earlier instructions end before this one, fields of later ones begin behind it
    rcases Nat.lt_trichotomy q p with hlt | rfl | hgt
    · obtain ⟨m, hm⟩ := walk.exists_length hq
      have hend := (instructionLength_eq_ok_iff.mp hm).1.add_width_le hfield
      have hnext := walk.add_length_le hq hm (.inl hp) hlt
      omega
    · have hcovers : ¬ (field.position ≤ q + i ∧ q + i < field.position + field.width) :=
        fun hcovers => hfree ⟨field, hfield, hcovers⟩
      omega
    · have hnext := walk.add_length_le hp hl (.inl hq) hgt
      omega
  · intro field hfield i hi
    have hend := hshape.add_width_le hfield
    have hmem : old.relocatedPatch s field ∈
        (starts.flatMap old.branchFieldsAt).map (old.relocatedPatch s) :=
      List.mem_map_of_mem (List.mem_flatMap.mpr ⟨p, hp, hfield⟩)
    refine getElem?_applyPatches_of_mem ?_ hmem ?_ ?_
    · refine List.pairwise_map.mpr (walk.pairwise_fields.imp ?_)
      intro f g hfg
      simpa only [relocatedPatch, BranchField.length_offsetBytes] using hfg
    · simp only [relocatedPatch, BranchField.length_offsetBytes]
      omega
    · simpa only [relocatedPatch, BranchField.length_offsetBytes] using hi

/-! ## Relocated instructions -/

/-- The instruction at a position of old code is found in new code where a shift
puts it. -/
structure Relocated (s : Shift) (old new : Bytecode) (p : Nat) : Prop where
  /-- It is complete, and as long as it was. -/
  length : ∃ n, old.instructionLength p = .ok n ∧ new.instructionLength (s.start p) = .ok n
  /-- Its bytes are those it had, except for distances to targets. -/
  bytes : ∀ n, old.instructionLength p = .ok n →
    ∀ i < n, ¬ old.IsOffsetByte p (p + i) → new[s.start p + i]? = old[p + i]?
  /-- Its branches lead to where their targets have gone. -/
  targets : new.branchTargets (s.start p) = (old.branchTargets p).map s.branchTarget

/-- An instruction is relocated if new code has its patched bytes where the
shift puts it. -/
theorem PatchedInstruction.relocated {patched : Bytecode}
    (hpatched : PatchedInstruction s old patched p n) (hl : old.instructionLength p = .ok n)
    (hgap : s.gap % 4 = 0) (hnew : ∀ i < n, new[s.start p + i]? = patched[p + i]?)
    (hsize : s.start p + n ≤ new.size)
    (hfits : ∀ field ∈ old.branchFieldsAt p, field.Fits (old.relocatedOffset s field)) :
    Relocated s old new p := by
  have hshape := (instructionLength_eq_ok_iff.mp hl).1
  have haligned : s.start p % 4 = p % 4 := by
    unfold Shift.start
    split <;> omega
  have same : SameInstruction old new p (s.start p) n :=
    ⟨fun i hi hfree => (hnew i hi).trans (hpatched.bytes i hi hfree), fun _ => haligned⟩
  refine ⟨⟨n, hl, same.instructionLength hl hsize⟩, ?_, ?_⟩
  · intro m hm
    cases hl.symm.trans hm
    exact same.bytes
  · unfold branchTargets
    rw [(same.shape_and_fields hshape).2, List.map_map, List.map_map]
    refine List.map_congr_left fun field hfield => ?_
    have hsource := source_lt_position hfield
    have hend := hshape.add_width_le hfield
    -- the moved field holds the patched bytes, which read back as the new distance
    have hoffset : new.branchOffset (field.moveTo (s.start p)) = old.relocatedOffset s field := by
      refine branchOffset_of_bytes (hfits field hfield) fun i hi => ?_
      have hi : i < field.width := hi
      have hbyte := hnew (field.position - p + i) (by omega)
      have hplace : p + (field.position - p + i) = field.position + i := by omega
      rw [hplace, hpatched.fields field hfield i hi] at hbyte
      unfold BranchField.moveTo
      rw [hsource.1, Nat.add_assoc]
      exact hbyte
    show (s.start p : Int) + new.branchOffset (field.moveTo (s.start p)) =
      s.branchTarget (old.branchTarget field)
    rw [hoffset]
    unfold relocatedOffset
    rw [hsource.1]
    omega

/-! ## Untouched instructions -/

/-- An instruction whose bytes are the same has the same length, and its branches
lead to the same targets. -/
theorem eq_of_bytes (hl : old.instructionLength p = .ok n)
    (h : ∀ i < n, new[p + i]? = old[p + i]?) :
    new.instructionLength p = .ok n ∧ new.branchFieldsAt p = old.branchFieldsAt p ∧
      new.branchTargets p = old.branchTargets p := by
  have hshape := (instructionLength_eq_ok_iff.mp hl).1
  have hsize := add_instructionLength_le hl
  have hone := one_le_instructionLength hl
  have same : SameInstruction old new p p n := ⟨fun i hi _ => h i hi, fun _ => rfl⟩
  have hsize' : p + n ≤ new.size := by
    have hlast := h (n - 1) (by omega)
    have hinside : p + (n - 1) < old.size := by omega
    rw [Array.getElem?_eq_getElem hinside] at hlast
    have hlt := (Array.getElem?_eq_some_iff.mp hlast).1
    omega
  have hfields : new.branchFieldsAt p = old.branchFieldsAt p := by
    rw [(same.shape_and_fields hshape).2]
    refine (List.map_congr_left fun field hfield => ?_).trans (List.map_id _)
    obtain ⟨hsource, hlt⟩ := source_lt_position hfield
    obtain ⟨source, position, isLong⟩ := field
    dsimp only at hsource hlt
    simp only [BranchField.moveTo, hsource, id]
    congr 1
    omega
  refine ⟨same.instructionLength hl hsize', hfields, ?_⟩
  unfold branchTargets
  rw [hfields]
  refine List.map_congr_left fun field hfield => ?_
  have hlt := (source_lt_position hfield).2
  have hend := hshape.add_width_le hfield
  have hbyte : ∀ i < field.width, new[field.position + i]? = old[field.position + i]? := by
    intro i hi
    have hplace : field.position + i = p + (field.position - p + i) := by omega
    rw [hplace]
    exact h _ (by omega)
  unfold branchTarget branchOffset
  unfold BranchField.width at hbyte
  split
  · next hlong =>
    rw [if_pos hlong] at hbyte
    rw [i32At?_congr hbyte]
  · next hshort =>
    rw [if_neg hshort] at hbyte
    rw [u16At?_congr hbyte]

/-- A walk over bytes that are the same is the same. -/
theorem Walk.of_bytes {first last : Nat} (walk : Walk old first starts last)
    (h : ∀ i, first ≤ i → i < last → new[i]? = old[i]?) : Walk new first starts last := by
  refine walk.congr fun p hp => ?_
  obtain ⟨n, hl⟩ := walk.exists_length hp
  obtain ⟨hbegin, hend⟩ := walk.mem_bounds hp
  have hnext := walk.add_length_le hp hl (.inr rfl) hend
  exact (eq_of_bytes hl fun i hi => h _ (by omega) (by omega)).1.trans hl.symm

/-- Overwriting bytes before a walk does not change it. -/
theorem Walk.overwrite_before {code : Bytecode} {position first : Nat} {starts : List Nat}
    {bytes : List UInt8} (walk : Walk code first starts code.size)
    (h : position + bytes.length ≤ first) :
    Walk (code.overwrite position bytes) first starts (code.overwrite position bytes).size := by
  rw [size_overwrite]
  exact walk.of_bytes fun i hi _ => getElem?_overwrite_of_outside (.inr (Nat.le_trans h hi))

/-- Whether an instruction is relocated depends on its bytes only, as they were
and as they are. -/
theorem Relocated.congr {old' new' : Bytecode} (h : Relocated s old new p)
    (hl : old.instructionLength p = .ok n) (hold : ∀ i < n, old'[p + i]? = old[p + i]?)
    (hnew : ∀ i < n, new'[s.start p + i]? = new[s.start p + i]?) : Relocated s old' new' p := by
  obtain ⟨m, hm, hl'⟩ := h.length
  cases hl.symm.trans hm
  obtain ⟨hlength, hfields, htargets⟩ := eq_of_bytes hl hold
  obtain ⟨hlength', -, htargets'⟩ := eq_of_bytes hl' hnew
  refine ⟨⟨n, hlength, hlength'⟩, ?_, by rw [htargets, htargets', h.targets]⟩
  intro m hm i hi hfree
  cases hlength.symm.trans hm
  unfold IsOffsetByte at hfree
  rw [hfields] at hfree
  rw [hnew i hi, hold i hi]
  exact h.bytes n hl i hi hfree

/-- Without a gap, every instruction is where a shift puts it. -/
theorem relocated_self (hgap : s.gap = 0) (hl : code.instructionLength p = .ok n) :
    Relocated s code code p := by
  have hstart : s.start p = p := by
    unfold Shift.start
    split <;> omega
  have htarget : s.branchTarget = id := by
    funext t
    unfold Shift.branchTarget
    rw [hgap]
    simp
  refine ⟨⟨n, hl, by rw [hstart, hl]⟩, fun _ _ _ _ _ => by rw [hstart], ?_⟩
  rw [hstart, htarget, List.map_id]

/-! ## Moved instructions -/

section Moved

variable {a b c mid : Bytecode} {q r : Nat} {f g : Int → Int}

namespace SameInstruction

/-- The bytes of distances have moved along. -/
theorem isOffsetByte_iff (same : SameInstruction a b p q n) (shape : Shape a p n) (i : Nat) :
    b.IsOffsetByte q (q + i) ↔ a.IsOffsetByte p (p + i) := by
  have hcovers : ∀ field ∈ a.branchFieldsAt p,
      ((field.moveTo q).Covers (q + i) ↔ field.Covers (p + i)) := by
    intro field hfield
    obtain ⟨hsource, hlt⟩ := source_lt_position hfield
    unfold BranchField.Covers
    show q + (field.position - field.source) ≤ q + i ∧
      q + i < q + (field.position - field.source) + field.width ↔ _
    omega
  unfold IsOffsetByte
  rw [(same.shape_and_fields shape).2]
  constructor
  · rintro ⟨moved, hmoved, h⟩
    obtain ⟨field, hfield, rfl⟩ := List.mem_map.mp hmoved
    exact ⟨field, hfield, (hcovers field hfield).mp h⟩
  · rintro ⟨field, hfield, h⟩
    exact ⟨_, List.mem_map_of_mem hfield, (hcovers field hfield).mpr h⟩

/-- The same instruction as the same instruction is the same. -/
theorem trans (first : SameInstruction a b p q n) (second : SameInstruction b c q r n)
    (shape : Shape a p n) (hn : 0 < n) : SameInstruction a c p r n := by
  refine ⟨fun i hi hfree => ?_, fun hswitch => ?_⟩
  · have hfree' : ¬ b.IsOffsetByte q (q + i) := fun h =>
      hfree ((first.isOffsetByte_iff shape i).mp h)
    exact (second.bytes i hi hfree').trans (first.bytes i hi hfree)
  · have hswitch' : b.IsSwitch q := by
      unfold IsSwitch
      rw [first.opcode hn]
      exact hswitch
    exact (second.aligned hswitch').trans (first.aligned hswitch)

end SameInstruction

/-- The instruction at a position of old code is found at a place of new code,
and its branches lead elsewhere. -/
structure Moved (route : Int → Int) (old new : Bytecode) (p q : Nat) : Prop where
  /-- It is complete, and as long as it was. -/
  length : ∃ n, old.instructionLength p = .ok n ∧ new.instructionLength q = .ok n
  /-- It is the same, except for distances to targets. -/
  same : ∀ n, old.instructionLength p = .ok n → SameInstruction old new p q n
  /-- Its branches lead to where their targets have gone. -/
  targets : new.branchTargets q = (old.branchTargets p).map route

/-- A relocated instruction is moved by the gap. -/
theorem Relocated.moved {s : Shift} (h : Relocated s old new p) (hgap : s.gap % 4 = 0) :
    Moved s.branchTarget old new p (s.start p) := by
  refine ⟨h.length, fun n hl => ⟨h.bytes n hl, fun _ => ?_⟩, h.targets⟩
  unfold Shift.start
  split <;> omega

/-- An instruction whose bytes are the same is where it was. -/
theorem moved_of_bytes (hl : old.instructionLength p = .ok n)
    (h : ∀ i < n, new[p + i]? = old[p + i]?) : Moved id old new p p := by
  obtain ⟨hlength, -, htargets⟩ := eq_of_bytes hl h
  refine ⟨⟨n, hl, hlength⟩, fun m hm => ?_, by rw [htargets, List.map_id]⟩
  cases hl.symm.trans hm
  exact ⟨fun i hi _ => h i hi, fun _ => rfl⟩

/-- A complete instruction is where it is. -/
theorem moved_self (hl : old.instructionLength p = .ok n) : Moved id old old p p :=
  moved_of_bytes hl fun _ _ => rfl

/-- An instruction is moved twice. -/
theorem Moved.trans (first : Moved f old mid p q) (second : Moved g mid new q r) :
    Moved (g ∘ f) old new p r := by
  obtain ⟨n, hl, hl'⟩ := first.length
  obtain ⟨m, hm, hm'⟩ := second.length
  cases hl'.symm.trans hm
  have hone := one_le_instructionLength hl
  refine ⟨⟨n, hl, hm'⟩, fun k hk => ?_, ?_⟩
  · cases hl.symm.trans hk
    exact (first.same n hl).trans (second.same n hl') (instructionLength_eq_ok_iff.mp hl).1 hone
  · rw [second.targets, first.targets, List.map_map]

/-- A moved instruction has the opcode that it had. -/
theorem Moved.opcode_eq (moved : Moved f old new p q) : new[q]? = old[p]? := by
  obtain ⟨n, hl, -⟩ := moved.length
  exact (moved.same n hl).opcode (one_le_instructionLength hl)

/-- A moved instruction without distances has all of its bytes. -/
theorem Moved.byte_eq (moved : Moved f old new p q) (hl : old.instructionLength p = .ok n)
    (hfields : old.branchFieldsAt p = []) {i : Nat} (hi : i < n) :
    new[q + i]? = old[p + i]? := by
  refine (moved.same n hl).bytes i hi ?_
  rintro ⟨field, hfield, -⟩
  rw [hfields] at hfield
  cases hfield

end Moved

/-! ## Walks past a gap -/

namespace Walk

variable {first last : Nat}

/-- The instructions before a gap are walked as they were. -/
theorem before_gap (walk : Walk old first starts s.position)
    (hnew : ∀ p ∈ starts, Relocated s old new p) :
    Walk new first (starts.map s.start) s.position := by
  have hstart : ∀ p ∈ starts, s.start p = id p := fun p hp =>
    if_neg (by have h := (walk.mem_bounds hp).2; omega)
  rw [List.map_congr_left hstart, List.map_id]
  refine walk.congr fun p hp => ?_
  obtain ⟨n, hold, hnew⟩ := (hnew p hp).length
  rw [hstart p hp] at hnew
  exact hnew.trans hold.symm

/-- The instructions behind a gap are walked behind it. -/
theorem behind_gap (walk : Walk old first starts last) (hfirst : s.position ≤ first)
    (hnew : ∀ p ∈ starts, Relocated s old new p) :
    Walk new (first + s.gap) (starts.map s.start) (last + s.gap) := by
  have hstart : ∀ p ∈ starts, s.start p = p + s.gap := fun p hp =>
    if_pos (by have h := (walk.mem_bounds hp).1; omega)
  rw [List.map_congr_left hstart]
  refine walk.moved fun p hp => ?_
  obtain ⟨n, hold, hnew⟩ := (hnew p hp).length
  rw [← hstart p hp, hold, hnew]

end Walk

/-! ## Code that grows at the front -/

/-- Code has grown before some position. The instructions from there to the end have
moved by what was added. -/
structure Stretched (grown first : Nat) (pending : List Nat) (old new : Bytecode) : Prop where
  /-- They were a walk to the end. -/
  walk : Walk old first pending old.size
  /-- The code is longer. -/
  size : new.size = old.size + grown
  /-- They have moved. -/
  moved : ∀ p ∈ pending, ∃ route, Moved route old new p (p + grown)

namespace Stretched

variable {mid : Bytecode} {grown first : Nat} {pending : List Nat}

/-- Nothing has grown yet. -/
theorem refl (walk : Walk old first pending old.size) : old.Stretched 0 first pending old := by
  refine ⟨walk, rfl, fun p hp => ?_⟩
  obtain ⟨n, hl⟩ := walk.exists_length hp
  exact ⟨id, moved_self hl⟩

/-- The instructions are a walk to the end again. -/
theorem walk_pending (stretched : old.Stretched grown first pending new) :
    Walk new (first + grown) (pending.map (· + grown)) new.size := by
  rw [stretched.size]
  refine stretched.walk.moved fun p hp => ?_
  obtain ⟨route, hmoved⟩ := stretched.moved p hp
  obtain ⟨n, hl, hl'⟩ := hmoved.length
  rw [hl, hl']

/-- Code grows once more. -/
theorem grow (stretched : old.Stretched grown first pending mid) (more : Nat)
    (hsize : new.size = mid.size + more)
    (hmoved : ∀ p ∈ pending, ∃ route, Moved route mid new (p + grown) (p + grown + more)) :
    old.Stretched (grown + more) first pending new := by
  refine ⟨stretched.walk, ?_, fun p hp => ?_⟩
  · rw [hsize, stretched.size, Nat.add_assoc]
  · obtain ⟨route, before⟩ := stretched.moved p hp
    obtain ⟨route', after⟩ := hmoved p hp
    rw [Nat.add_assoc] at after
    exact ⟨route' ∘ route, before.trans after⟩

/-- The first of the instructions is passed. -/
theorem tail (stretched : old.Stretched grown first (p :: pending) new)
    (hl : old.instructionLength p = .ok n) : old.Stretched grown (p + n) pending new := by
  obtain ⟨m, hm, rest⟩ := stretched.walk.exists_rest
  cases hl.symm.trans hm
  exact ⟨rest, stretched.size, fun q hq => stretched.moved q (List.mem_cons_of_mem p hq)⟩

end Stretched

end JvmClass.Bytecode
