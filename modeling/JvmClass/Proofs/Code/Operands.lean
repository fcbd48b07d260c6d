import JvmClass.Proofs.Attribute.Copying

/-!
# Copied operands

Some instructions refer to a constant by an index of one or two bytes. Copying
the operands of a body renumbers each of these indices in place, unless a new
index does not fit its byte; the instruction then waits for its wide form. All
other bytes stay, so that the instructions are the same as before in all other
respects.
-/

namespace JvmClass

/-- The number of bytes of the pool index of the instructions with an opcode. -/
def Opcode.poolWidth (op : UInt8) : Nat :=
  if op = ldc then 1 else if hasPoolIndex op then 2 else 0

/-- An instruction with a pool index has a fixed length with room for the index,
and is no branch. -/
theorem Layout.of_poolWidth {op : UInt8} (h : 0 < Opcode.poolWidth op) :
    ∃ operands < 5, ofOpcode op = .fixed operands ∧ Opcode.poolWidth op ≤ operands ∧
      Opcode.isShortBranch op = false ∧ Opcode.isLongBranch op = false := by
  revert h
  exact forall_opcode (P := fun op => 0 < Opcode.poolWidth op → ∃ operands < 5,
    ofOpcode op = .fixed operands ∧ Opcode.poolWidth op ≤ operands ∧
      Opcode.isShortBranch op = false ∧ Opcode.isLongBranch op = false) (by decide +kernel) op

namespace Bytecode

/-- The opcode at a position, which lies in the code. -/
def opcodeAt (code : Bytecode) (p : Nat) : UInt8 := code[p]?.getD 0

/-- The index of the constant that the instruction at a position refers to. -/
def poolOperand? (code : Bytecode) (p : Nat) : Option UInt16 :=
  if code.opcodeAt p = Opcode.ldc then code[p + 1]?.map UInt8.toUInt16
  else if Opcode.hasPoolIndex (code.opcodeAt p) then code.u16At? (p + 1)
  else none

/-- Whether a byte belongs to the pool index of the instruction at a position. -/
def IsPoolByte (code : Bytecode) (p i : Nat) : Prop :=
  p < i ∧ i ≤ p + Opcode.poolWidth (code.opcodeAt p)

variable {code : Bytecode} {p n : Nat}

/-- The opcode at a position is the byte there. -/
theorem opcodeAt_eq {op : UInt8} (byte : code[p]? = some op) : code.opcodeAt p = op := by
  unfold opcodeAt
  rw [byte, Option.getD_some]

/-- A complete instruction with a pool index has a fixed length. -/
theorem Shape.of_poolWidth (shape : Shape code p n)
    (h : 0 < Opcode.poolWidth (code.opcodeAt p)) :
    ∃ op operands, code[p]? = some op ∧ Layout.ofOpcode op = .fixed operands ∧
      n = 1 + operands ∧ Opcode.poolWidth op ≤ operands ∧ code.branchFieldsAt p = [] := by
  cases shape with
  | @fixed op operands byte layout =>
    rw [opcodeAt_eq byte] at h
    obtain ⟨found, -, hlayout, hwidth, hshort, hlong⟩ := Layout.of_poolWidth h
    have hfound : Layout.fixed found = .fixed operands := hlayout.symm.trans layout
    cases hfound
    refine ⟨op, operands, byte, layout, rfl, hwidth, ?_⟩
    rw [branchFieldsAt_of_fixed byte layout, hshort, hlong]
    rfl
  | tableSwitch byte | lookupSwitch byte | wide byte =>
    rw [opcodeAt_eq byte] at h
    exact absurd h (by decide)

/-- An index is as wide as the opcode says, and is there. -/
theorem exists_poolOperand (hl : code.instructionLength p = .ok n)
    (h : 0 < Opcode.poolWidth (code.opcodeAt p)) : ∃ k, code.poolOperand? p = some k := by
  obtain ⟨shape, hsize⟩ := instructionLength_eq_ok_iff.mp hl
  obtain ⟨op, operands, byte, -, rfl, hwidth, -⟩ := shape.of_poolWidth h
  unfold poolOperand?
  unfold Opcode.poolWidth at h hwidth
  rw [opcodeAt_eq byte] at h ⊢
  by_cases hldc : op = Opcode.ldc
  · rw [if_pos hldc] at hwidth
    rw [if_pos hldc, Array.getElem?_eq_getElem (by omega)]
    exact ⟨_, rfl⟩
  · rw [if_neg hldc] at h hwidth
    rw [if_neg hldc]
    by_cases hwide : Opcode.hasPoolIndex op = true
    · rw [if_pos hwide] at hwidth
      rw [if_pos hwide]
      exact exists_u16At? (by omega)
    · rw [if_neg hwide] at h
      cases h

/-- An instruction without a pool index has no operand to be renumbered. -/
theorem poolOperand?_eq_none (h : ¬ 0 < Opcode.poolWidth (code.opcodeAt p)) :
    code.poolOperand? p = none := by
  unfold Opcode.poolWidth at h
  have hldc : code.opcodeAt p ≠ Opcode.ldc := fun hldc => h (by rw [if_pos hldc]; decide)
  rw [if_neg hldc] at h
  have hpool : ¬ Opcode.hasPoolIndex (code.opcodeAt p) = true := fun hpool =>
    h (by rw [if_pos hpool]; decide)
  unfold poolOperand?
  rw [if_neg hldc, if_neg hpool]

/-! ## Changes of operands -/

section Changes

variable (index : UInt16 → UInt16) (code : Bytecode)

/-- The new index of the instruction at a position. -/
def newIndex (p : Nat) : UInt16 := index ((code.poolOperand? p).getD 0)

/-- Whether the instruction at a position needs its wide form. -/
def NeedsWide (p : Nat) : Prop := code.opcodeAt p = Opcode.ldc ∧ 255 < code.newIndex index p

instance (p : Nat) : Decidable (code.NeedsWide index p) := inferInstanceAs (Decidable (_ ∧ _))

/-- Whether the instruction at a position gets its new index in place. -/
def IsPatched (p : Nat) : Prop :=
  0 < Opcode.poolWidth (code.opcodeAt p) ∧ ¬ code.NeedsWide index p

instance (p : Nat) : Decidable (code.IsPatched index p) := inferInstanceAs (Decidable (_ ∧ _))

/-- The new index of the instruction at a position, as it is written in place. -/
def operandPatch (p : Nat) : Patch where
  position := p + 1
  bytes :=
    if code.opcodeAt p = Opcode.ldc then [(code.newIndex index p).toUInt8]
    else Codec.bytesOfU16 (code.newIndex index p)

/-- What renumbering the constants of a body does to the operands of some of its
instructions. -/
def operandChanges (starts : List Nat) : OperandChanges where
  patches := (starts.reverse.filter (code.IsPatched index)).map (code.operandPatch index)
  widened := (starts.reverse.filter (code.NeedsWide index)).map fun p => (p, code.newIndex index p)

/-- What renumbering does to the operand of one instruction. -/
theorem operandChanges_singleton (p : Nat) :
    operandChanges index code [p] =
      if code.NeedsWide index p then ⟨[], [(p, code.newIndex index p)]⟩
      else if 0 < Opcode.poolWidth (code.opcodeAt p) then ⟨[code.operandPatch index p], []⟩
      else ⟨[], []⟩ := by
  unfold operandChanges IsPatched
  by_cases hwide : code.NeedsWide index p
  · simp [hwide]
  · by_cases hwidth : 0 < Opcode.poolWidth (code.opcodeAt p) <;> simp [hwide, hwidth]

/-- The changes of more instructions come before those of the first ones. -/
theorem operandChanges_cons (p : Nat) (starts : List Nat) :
    operandChanges index code (p :: starts) =
      ⟨(operandChanges index code starts).patches ++ (operandChanges index code [p]).patches,
        (operandChanges index code starts).widened ++ (operandChanges index code [p]).widened⟩ := by
  unfold operandChanges
  simp only [List.reverse_cons, List.filter_append, List.map_append, List.reverse_nil,
    List.nil_append]

end Changes

/-! ## Copying -/

section Copying

open ConstantPool (Lasting lasting_pure lasting_copy)

variable (source : ConstantPool) (names : Renaming)

/-- What copying does to the operand of an instruction, given the pool at the
end. -/
structure OperandCopied (code : Bytecode) (starts : List Nat) (before : OperandChanges)
    (pool : ConstantPool) (changes : OperandChanges) : Prop where
  /-- The new indices are written, or wait for wide instructions. -/
  changes : changes =
    ⟨(operandChanges (source.copiedIndex names pool) code starts).patches ++ before.patches,
      (operandChanges (source.copiedIndex names pool) code starts).widened ++ before.widened⟩
  /-- The new indices lead to the renamed constants. -/
  renumbered : ∀ p ∈ starts, ∀ k, code.poolOperand? p = some k →
    source.Renumbered names pool k (code.newIndex (source.copiedIndex names pool) p)

/-- Copying the constant of an instruction, and then what is to be done with the
new index. -/
theorem copyOperand_eq {k : UInt16} (hk : code.poolOperand? p = some k)
    (before : OperandChanges) :
    code.copyOperand source names before p (code.opcodeAt p) =
      source.copy names k >>= fun i => pure
        (if code.opcodeAt p = Opcode.ldc ∧ 255 < i then
          ⟨before.patches, (p, i) :: before.widened⟩
        else
          ⟨⟨p + 1, if code.opcodeAt p = Opcode.ldc then [i.toUInt8] else Codec.bytesOfU16 i⟩ ::
            before.patches, before.widened⟩) := by
  unfold poolOperand? at hk
  unfold copyOperand
  by_cases hldc : code.opcodeAt p = Opcode.ldc
  · rw [if_pos hldc] at hk
    obtain ⟨byte, hbyte, rfl⟩ := Option.map_eq_some_iff.mp hk
    rw [if_pos hldc, hbyte, Option.getD_some]
    refine bind_congr fun i => ?_
    by_cases hle : i ≤ 255
    · rw [if_pos hle, if_neg fun h => UInt16.not_lt.mpr hle h.2, if_pos hldc]
    · rw [if_neg hle, if_pos ⟨hldc, UInt16.not_le.mp hle⟩]
  · rw [if_neg hldc] at hk
    have hpool : Opcode.hasPoolIndex (code.opcodeAt p) = true := by
      by_contra hnone
      rw [if_neg hnone] at hk
      cases hk
    rw [if_pos hpool] at hk
    rw [if_neg hldc, if_pos hpool, hk, Option.getD_some]
    exact bind_congr fun i => by rw [if_neg fun h => hldc h.1, if_neg hldc]

/-- An instruction without a pool index is passed. -/
theorem copyOperand_of_poolWidth_eq_zero (h : ¬ 0 < Opcode.poolWidth (code.opcodeAt p))
    (before : OperandChanges) :
    code.copyOperand source names before p (code.opcodeAt p) = pure before := by
  unfold Opcode.poolWidth at h
  have hldc : code.opcodeAt p ≠ Opcode.ldc := fun hldc => h (by rw [if_pos hldc]; decide)
  rw [if_neg hldc] at h
  have hpool : ¬ Opcode.hasPoolIndex (code.opcodeAt p) = true := fun hpool =>
    h (by rw [if_pos hpool]; decide)
  unfold copyOperand
  rw [if_neg hldc, if_neg hpool]

/-- The operand of a complete instruction is copied for good. -/
theorem lasting_copyOperand (hl : code.instructionLength p = .ok n) (before : OperandChanges) :
    Lasting (code.copyOperand source names before p (code.opcodeAt p))
      (OperandCopied source names code [p] before) := by
  by_cases hwidth : 0 < Opcode.poolWidth (code.opcodeAt p)
  · obtain ⟨k, hk⟩ := exists_poolOperand hl hwidth
    rw [copyOperand_eq source names hk]
    refine (lasting_copy source names k).bind fun i => lasting_pure fun pool hcopied => ?_
    obtain ⟨hrenumbered, hindex⟩ := hcopied
    have hnew : code.newIndex (source.copiedIndex names pool) p = i := by
      unfold newIndex
      rw [hk, Option.getD_some, hindex]
    refine ⟨?_, fun q hq k' hk' => ?_⟩
    · rw [operandChanges_singleton, if_pos hwidth]
      simp only [NeedsWide, operandPatch, hnew]
      split <;> rfl
    · cases List.mem_singleton.mp hq
      cases hk.symm.trans hk'
      rw [hnew]
      exact hrenumbered
  · rw [copyOperand_of_poolWidth_eq_zero source names hwidth before]
    refine lasting_pure fun pool => ⟨?_, fun q hq k hk => ?_⟩
    · have hldc : code.opcodeAt p ≠ Opcode.ldc := fun hldc => hwidth (by rw [hldc]; decide)
      rw [operandChanges_singleton, if_neg fun h => hldc h.1, if_neg hwidth]
      rfl
    · cases List.mem_singleton.mp hq
      cases (poolOperand?_eq_none hwidth).symm.trans hk

/-- The operands of code that can be walked are copied for good. -/
theorem lasting_copyOperands {starts : List Nat} (walk : Walk code 0 starts code.size) :
    Lasting (code.copyOperands source names)
      (OperandCopied source names code starts ⟨[], []⟩) := by
  unfold copyOperands
  rw [foldInstructions_eq_foldlM _ _ walk]
  have hlength : ∀ p ∈ starts, ∃ n, code.instructionLength p = .ok n :=
    fun p hp => walk.exists_length hp
  clear walk
  generalize OperandChanges.mk [] [] = before
  induction starts generalizing before with
  | nil => exact lasting_pure fun pool => ⟨rfl, fun p hp => by cases hp⟩
  | cons p starts ih =>
    obtain ⟨n, hl⟩ := hlength p List.mem_cons_self
    rw [List.foldlM_cons]
    refine (lasting_copyOperand source names hl before).bind fun between => ?_
    refine (ih (fun q hq => hlength q (List.mem_cons_of_mem _ hq)) between).imp
      fun pool changes hrest hfirst => ⟨?_, fun q hq => ?_⟩
    · rw [hrest.changes, hfirst.changes, operandChanges_cons _ _ p starts]
      simp only [List.append_assoc]
    · rcases List.mem_cons.mp hq with rfl | hq
      · exact hfirst.renumbered q List.mem_cons_self
      · exact hrest.renumbered q hq

end Copying

/-! ## Patched instructions -/

section Patched

variable {index : UInt16 → UInt16} {starts : List Nat}

/-- The patches are those of the instructions that get their index in place. -/
theorem mem_patches {patch : Patch} :
    patch ∈ (operandChanges index code starts).patches ↔
      ∃ q ∈ starts, code.IsPatched index q ∧ code.operandPatch index q = patch := by
  unfold operandChanges
  simp only [List.mem_map, List.mem_filter, List.mem_reverse, decide_eq_true_eq, and_assoc]

/-- The patch of an instruction covers its pool index. -/
theorem length_operandPatch (h : 0 < Opcode.poolWidth (code.opcodeAt p)) :
    (code.operandPatch index p).bytes.length = Opcode.poolWidth (code.opcodeAt p) := by
  unfold Opcode.poolWidth at h ⊢
  unfold operandPatch
  by_cases hldc : code.opcodeAt p = Opcode.ldc
  · simp only [if_pos hldc, List.length_singleton]
  · rw [if_neg hldc] at h
    by_cases hpool : Opcode.hasPoolIndex (code.opcodeAt p) = true
    · simp only [if_neg hldc, if_pos hpool]
      rfl
    · rw [if_neg hpool] at h
      cases h

/-- A load with an index of one byte takes two bytes. -/
theorem instructionLength_of_ldc (hl : code.instructionLength p = .ok n)
    (hldc : code.opcodeAt p = Opcode.ldc) :
    code.instructionLength p = .ok 2 ∧ code[p]? = some Opcode.ldc := by
  have hwidth : 0 < Opcode.poolWidth (code.opcodeAt p) := by
    rw [hldc]
    decide
  obtain ⟨op, operands, byte, layout, rfl, -, -⟩ :=
    (instructionLength_eq_ok_iff.mp hl).1.of_poolWidth hwidth
  obtain rfl : op = Opcode.ldc := (opcodeAt_eq byte).symm.trans hldc
  cases layout.symm.trans (show Layout.ofOpcode Opcode.ldc = .fixed 1 by decide)
  exact ⟨hl, byte⟩

/-- A complete instruction has room for its pool index. -/
theorem poolWidth_lt (hl : code.instructionLength p = .ok n) :
    Opcode.poolWidth (code.opcodeAt p) < n := by
  have hone := one_le_instructionLength hl
  by_cases h : 0 < Opcode.poolWidth (code.opcodeAt p)
  · obtain ⟨op, operands, byte, -, rfl, hwidth, -⟩ :=
      (instructionLength_eq_ok_iff.mp hl).1.of_poolWidth h
    rw [opcodeAt_eq byte]
    omega
  · omega

namespace Walk

variable (walk : Walk code 0 starts code.size) (hp : p ∈ starts)
  (hl : code.instructionLength p = .ok n)

include walk hp hl

/-- The patch of another instruction does not touch this one. -/
theorem operandPatch_apart {q : Nat} (hq : q ∈ starts) (hpatched : code.IsPatched index q)
    (hne : q ≠ p) :
    q + 1 + (code.operandPatch index q).bytes.length ≤ p ∨ p + n ≤ q := by
  rcases Nat.lt_or_gt_of_ne hne with hlt | hgt
  · obtain ⟨m, hm⟩ := walk.exists_length hq
    have hroom := poolWidth_lt hm
    have hnext := walk.add_length_le hq hm (.inl hp) hlt
    rw [length_operandPatch hpatched.1]
    omega
  · exact .inr (walk.add_length_le hp hl (.inl hq) hgt)

/-- All bytes but those of pool indices stay as they are. -/
theorem getElem?_patched_of_not_isPoolByte (index : UInt16 → UInt16) {i : Nat} (hi : i < n)
    (hfree : ¬ code.IsPoolByte p (p + i)) :
    (code.applyPatches (operandChanges index code starts).patches)[p + i]? = code[p + i]? := by
  refine getElem?_applyPatches_of_outside fun patch hpatch => ?_
  obtain ⟨q, hq, hpatched, rfl⟩ := mem_patches.mp hpatch
  show p + i < q + 1 ∨ q + 1 + (code.operandPatch index q).bytes.length ≤ p + i
  by_cases hqp : q = p
  · subst hqp
    rw [length_operandPatch hpatched.1]
    unfold IsPoolByte at hfree
    omega
  · have hapart := walk.operandPatch_apart hp hl hq hpatched hqp
    omega

/-- The new index of an instruction is found in its place. -/
theorem getElem?_patched_of_isPatched (hpatched : code.IsPatched index p) {i : Nat}
    (hi : i < (code.operandPatch index p).bytes.length) :
    (code.applyPatches (operandChanges index code starts).patches)[p + 1 + i]? =
      (code.operandPatch index p).bytes[i]? := by
  have hroom := poolWidth_lt hl
  have hsize := add_instructionLength_le hl
  have hlength : (code.operandPatch index p).bytes.length = Opcode.poolWidth (code.opcodeAt p) :=
    length_operandPatch hpatched.1
  have hmem : code.operandPatch index p ∈ (operandChanges index code starts).patches :=
    mem_patches.mpr ⟨p, hp, hpatched, rfl⟩
  refine getElem?_applyPatches_of_apart hmem (fun other hother => ?_) ?_ hi
  · obtain ⟨q, hq, hq', rfl⟩ := mem_patches.mp hother
    by_cases hqp : q = p
    · exact .inl (by rw [hqp])
    · have hapart := walk.operandPatch_apart hp hl hq hq' hqp
      show _ ∨ q + 1 + (code.operandPatch index q).bytes.length ≤ p + 1 ∨
        p + 1 + (code.operandPatch index p).bytes.length ≤ q + 1
      omega
  · show p + 1 + (code.operandPatch index p).bytes.length ≤ code.size
    omega

end Walk

/-- What patching leaves of an instruction: it has its new index if there was
room for it, and all else as before. -/
structure OperandReplaced (index : UInt16 → UInt16) (old new : Bytecode) (p : Nat) : Prop where
  /-- It is complete, and as long as it was. -/
  length : ∃ n, old.instructionLength p = .ok n ∧ new.instructionLength p = .ok n
  /-- Its other bytes are those it had. -/
  bytes : ∀ n, old.instructionLength p = .ok n → ∀ i < n, ¬ old.IsPoolByte p (p + i) →
    new[p + i]? = old[p + i]?
  /-- It refers to the new index. -/
  operand : ¬ old.NeedsWide index p → ∀ k, old.poolOperand? p = some k →
    new.poolOperand? p = some (index k)
  /-- Its branch fields are where they were. -/
  fields : new.branchFieldsAt p = old.branchFieldsAt p
  /-- Its branches lead where they led. -/
  targets : new.branchTargets p = old.branchTargets p

/-- A number that fits a byte is read back from it. -/
theorem toUInt16_toUInt8 {i : UInt16} (h : i ≤ 255) : i.toUInt8.toUInt16 = i := by
  have hle := UInt16.le_iff_toNat_le.mp h
  refine UInt16.toNat_inj.mp ?_
  rw [UInt8.toNat_toUInt16, UInt16.toNat_toUInt8]
  exact Nat.mod_eq_of_lt (Nat.lt_succ_of_le hle)

/-- Where the patch of an instruction has been written, its new index is read. -/
theorem poolOperand?_of_patch {patched : Bytecode} {k : UInt16} (hk : code.poolOperand? p = some k)
    (hnarrow : ¬ code.NeedsWide index p) (hopcode : patched.opcodeAt p = code.opcodeAt p)
    (hplaced : ∀ i < (code.operandPatch index p).bytes.length,
      patched[p + 1 + i]? = (code.operandPatch index p).bytes[i]?) :
    patched.poolOperand? p = some (index k) := by
  have hnew : code.newIndex index p = index k := by
    unfold newIndex
    rw [hk, Option.getD_some]
  unfold NeedsWide at hnarrow
  unfold operandPatch at hplaced
  unfold poolOperand? at hk ⊢
  rw [hnew] at hnarrow hplaced
  rw [hopcode]
  by_cases hldc : code.opcodeAt p = Opcode.ldc
  · simp only [if_pos hldc] at hplaced
    have hbyte := hplaced 0 Nat.zero_lt_one
    rw [Nat.add_zero] at hbyte
    rw [if_pos hldc, hbyte]
    have hle : index k ≤ 255 := UInt16.not_lt.mp fun hlt => hnarrow ⟨hldc, hlt⟩
    exact congrArg some (toUInt16_toUInt8 hle)
  · rw [if_neg hldc] at hk ⊢
    simp only [if_neg hldc] at hplaced
    have hpool : Opcode.hasPoolIndex (code.opcodeAt p) = true := by
      by_contra hnone
      rw [if_neg hnone] at hk
      cases hk
    rw [if_pos hpool]
    exact u16At?_of_bytes hplaced

/-- An instruction with its opcode and all bytes outside its pool index is as long
as it was, and leads where it led. -/
theorem eq_of_bytes_outside_operand {patched : Bytecode} (hl : code.instructionLength p = .ok n)
    (hsize : patched.size = code.size)
    (hbytes : ∀ i < n, ¬ code.IsPoolByte p (p + i) → patched[p + i]? = code[p + i]?) :
    patched.instructionLength p = .ok n ∧ patched.branchFieldsAt p = code.branchFieldsAt p ∧
      patched.branchTargets p = code.branchTargets p := by
  have hone := one_le_instructionLength hl
  obtain ⟨shape, hend⟩ := instructionLength_eq_ok_iff.mp hl
  by_cases hwidth : 0 < Opcode.poolWidth (code.opcodeAt p)
  · obtain ⟨op, operands, byte, layout, rfl, -, hfields⟩ := shape.of_poolWidth hwidth
    have byte' : patched[p]? = some op :=
      (hbytes 0 (by omega) fun h => Nat.lt_irrefl _ h.1).trans byte
    have shape' : Shape patched p (1 + operands) := .fixed byte' layout
    have hwidth' : 0 < Opcode.poolWidth (patched.opcodeAt p) := by
      rw [opcodeAt_eq byte']
      rw [opcodeAt_eq byte] at hwidth
      exact hwidth
    obtain ⟨-, -, -, -, -, -, hfields'⟩ := shape'.of_poolWidth hwidth'
    refine ⟨instructionLength_eq_ok_iff.mpr ⟨shape', by rw [hsize]; exact hend⟩, ?_, ?_⟩
    · rw [hfields, hfields']
    · unfold branchTargets
      rw [hfields, hfields', List.map_nil, List.map_nil]
  · refine eq_of_bytes hl fun i hi => hbytes i hi fun h => ?_
    unfold IsPoolByte at h
    omega

/-- Patching replaces the operand of every instruction. -/
theorem Walk.operandReplaced (walk : Walk code 0 starts code.size) (index : UInt16 → UInt16)
    (hp : p ∈ starts) :
    OperandReplaced index code
      (code.applyPatches (operandChanges index code starts).patches) p := by
  obtain ⟨n, hl⟩ := walk.exists_length hp
  have hone := one_le_instructionLength hl
  have hbytes := fun i (hi : i < n) hfree =>
    walk.getElem?_patched_of_not_isPoolByte hp hl index hi hfree
  have hopcode := hbytes 0 (by omega) fun h => Nat.lt_irrefl _ h.1
  obtain ⟨hlength, hfields, htargets⟩ :=
    eq_of_bytes_outside_operand hl (size_applyPatches code _) hbytes
  refine ⟨⟨n, hl, hlength⟩, fun m hm i hi hfree => ?_, fun hnarrow k hk => ?_, hfields, htargets⟩
  · cases hl.symm.trans hm
    exact hbytes i hi hfree
  · have hwidth : 0 < Opcode.poolWidth (code.opcodeAt p) := by
      by_contra hwidth
      cases (poolOperand?_eq_none hwidth).symm.trans hk
    refine poolOperand?_of_patch hk hnarrow ?_ fun i hi =>
      walk.getElem?_patched_of_isPatched hp hl ⟨hwidth, hnarrow⟩ hi
    exact congrArg (Option.getD · 0) hopcode

end Patched

end Bytecode

end JvmClass
