import JvmClass.Proofs.Instruction.Shape

/-!
# Branch fields of instructions

The fields that hold distances lie within their instruction, in order and
without overlap. An instruction that keeps its other bytes at another place
keeps its length and has its fields at the same distances from its start.
-/

namespace JvmClass.Bytecode

variable {code a b : Bytecode} {position length p q n : Nat}

/-! ## The fields of each shape -/

/-- The fields of an instruction are those for its opcode. -/
theorem branchFieldsAt_eq {op : UInt8} (byte : code[position]? = some op) :
    code.branchFieldsAt position = code.branchFields position op := by
  unfold branchFieldsAt
  rw [byte, Option.getD_some]

/-- Among the instructions of fixed length only jumps have a field, just behind
the opcode. -/
theorem branchFieldsAt_of_fixed {op : UInt8} {operands : Nat}
    (byte : code[position]? = some op) (layout : Layout.ofOpcode op = .fixed operands) :
    code.branchFieldsAt position =
      if Opcode.isShortBranch op then [⟨position, position + 1, false⟩]
      else if Opcode.isLongBranch op then [⟨position, position + 1, true⟩]
      else [] := by
  have htable : op ≠ Opcode.tableSwitch := by
    intro h
    have hlayout := layout.symm.trans ((Layout.eq_tableSwitch_iff op).mpr h)
    cases hlayout
  have hlookup : op ≠ Opcode.lookupSwitch := by
    intro h
    have hlayout := layout.symm.trans ((Layout.eq_lookupSwitch_iff op).mpr h)
    cases hlayout
  rw [branchFieldsAt_eq byte, branchFields]
  simp only [htable, hlookup, if_false]

/-- A table switch has one case for each number between its bounds. -/
theorem branchFieldsAt_of_tableSwitch {low high : Int}
    (byte : code[position]? = some Opcode.tableSwitch)
    (hlow : code.i32At? (switchOperands position + 4) = some low)
    (hhigh : code.i32At? (switchOperands position + 8) = some high) :
    code.branchFieldsAt position = switchFields position 4 (high - low + 1).toNat := by
  rw [branchFieldsAt_eq byte, branchFields, if_neg (by decide), if_neg (by decide),
    if_pos rfl, hlow, hhigh]
  rfl

/-- A lookup switch has one case for each pair. -/
theorem branchFieldsAt_of_lookupSwitch {pairs : Int}
    (byte : code[position]? = some Opcode.lookupSwitch)
    (hpairs : code.i32At? (switchOperands position + 4) = some pairs) :
    code.branchFieldsAt position = switchFields position 8 pairs.toNat := by
  rw [branchFieldsAt_eq byte, branchFields, if_neg (by decide), if_neg (by decide),
    if_neg (by decide), if_pos rfl, hpairs]
  rfl

/-- The longer forms of instructions are no branches. -/
theorem branchFieldsAt_of_wide (byte : code[position]? = some Opcode.wide) :
    code.branchFieldsAt position = [] := by
  rw [branchFieldsAt_eq byte, branchFields, if_neg (by decide), if_neg (by decide),
    if_neg (by decide), if_neg (by decide)]

/-! ## Places of fields -/

/-- The operands of a switch start behind its opcode. -/
theorem lt_switchOperands (position : Nat) : position < switchOperands position := by
  unfold switchOperands
  omega

/-- The operands of a switch are as far from it at every place of the same
alignment. -/
theorem switchOperands_of_aligned (h : q % 4 = p % 4) :
    switchOperands q = q + (switchOperands p - p) := by
  unfold switchOperands
  omega

/-- A field of a switch is that of the default or of a case. -/
theorem mem_switchFields {stride count : Nat} {field : BranchField} :
    field ∈ switchFields position stride count ↔
      field = ⟨position, switchOperands position, true⟩ ∨
        ∃ i < count, field = ⟨position, switchOperands position + 12 + stride * i, true⟩ := by
  unfold switchFields
  rw [List.mem_cons, List.mem_map]
  simp only [List.mem_range, eq_comm (b := field)]

/-- The fields of a switch are in order and do not overlap. -/
theorem pairwise_switchFields {stride count : Nat} (hstride : 4 ≤ stride) :
    (switchFields position stride count).Pairwise fun f g => f.position + f.width ≤ g.position := by
  unfold switchFields
  refine List.pairwise_cons.mpr ⟨?_, ?_⟩
  · intro g hg
    obtain ⟨i, -, rfl⟩ := List.mem_map.mp hg
    simp only [BranchField.width, if_true]
    omega
  · refine List.pairwise_map.mpr (List.pairwise_lt_range.imp ?_)
    intro i j hij
    have hmul := Nat.mul_le_mul_left stride (Nat.succ_le_of_lt hij)
    rw [Nat.mul_succ] at hmul
    simp only [BranchField.width, if_true]
    omega

/-- A switch at another place of the same alignment has its fields at the same
distances. -/
theorem map_moveTo_switchFields {stride count : Nat} (h : q % 4 = p % 4) :
    (switchFields p stride count).map (·.moveTo q) = switchFields q stride count := by
  have hp := lt_switchOperands p
  unfold switchFields
  rw [List.map_cons, List.map_map, switchOperands_of_aligned h]
  refine List.cons_eq_cons.mpr ⟨rfl, List.map_congr_left fun i _ => ?_⟩
  simp only [Function.comp, BranchField.moveTo, BranchField.mk.injEq, and_true, true_and]
  omega

/-- A field belongs to the instruction at its source and lies behind the
opcode. -/
theorem source_lt_position {field : BranchField} (h : field ∈ code.branchFieldsAt position) :
    field.source = position ∧ position < field.position := by
  have hoperands := lt_switchOperands position
  unfold branchFieldsAt branchFields at h
  simp only at h
  split at h
  · cases List.mem_singleton.mp h
    exact ⟨rfl, Nat.lt_succ_self _⟩
  split at h
  · cases List.mem_singleton.mp h
    exact ⟨rfl, Nat.lt_succ_self _⟩
  split at h
  · obtain rfl | ⟨i, -, rfl⟩ := mem_switchFields.mp h
    · exact ⟨rfl, hoperands⟩
    · exact ⟨rfl, by dsimp only; omega⟩
  split at h
  · obtain rfl | ⟨i, -, rfl⟩ := mem_switchFields.mp h
    · exact ⟨rfl, hoperands⟩
    · exact ⟨rfl, by dsimp only; omega⟩
  · cases h

/-- A field ends within its instruction. -/
theorem Shape.add_width_le (shape : Shape code position length) {field : BranchField}
    (h : field ∈ code.branchFieldsAt position) :
    field.position + field.width ≤ position + length := by
  have hoperands := lt_switchOperands position
  cases shape with
  | @fixed op operands byte layout =>
    rw [branchFieldsAt_of_fixed byte layout] at h
    split at h
    · next hshort =>
      cases layout.symm.trans (Layout.of_isShortBranch hshort)
      cases List.mem_singleton.mp h
      simp [BranchField.width]
    · split at h
      · next hlong =>
        cases layout.symm.trans (Layout.of_isLongBranch hlong)
        cases List.mem_singleton.mp h
        simp [BranchField.width]
      · cases h
  | tableSwitch byte hlow hhigh hcount =>
    rw [branchFieldsAt_of_tableSwitch byte hlow hhigh] at h
    obtain rfl | ⟨i, hi, rfl⟩ := mem_switchFields.mp h <;>
      simp only [BranchField.width, if_true] <;> omega
  | lookupSwitch byte hpairs hcount =>
    rw [branchFieldsAt_of_lookupSwitch byte hpairs] at h
    obtain rfl | ⟨i, hi, rfl⟩ := mem_switchFields.mp h <;>
      simp only [BranchField.width, if_true] <;> omega
  | wide byte =>
    rw [branchFieldsAt_of_wide byte] at h
    cases h

/-- The fields of an instruction are in order and do not overlap. -/
theorem Shape.pairwise_branchFieldsAt (shape : Shape code position length) :
    (code.branchFieldsAt position).Pairwise fun f g => f.position + f.width ≤ g.position := by
  cases shape with
  | fixed byte layout =>
    rw [branchFieldsAt_of_fixed byte layout]
    split
    · exact List.pairwise_singleton ..
    · split
      · exact List.pairwise_singleton ..
      · exact .nil
  | tableSwitch byte hlow hhigh =>
    rw [branchFieldsAt_of_tableSwitch byte hlow hhigh]
    exact pairwise_switchFields (by omega)
  | lookupSwitch byte hpairs =>
    rw [branchFieldsAt_of_lookupSwitch byte hpairs]
    exact pairwise_switchFields (by omega)
  | wide byte =>
    rw [branchFieldsAt_of_wide byte]
    exact .nil

/-- Opcodes are no part of a distance. -/
theorem not_isOffsetByte_self (code : Bytecode) (position : Nat) :
    ¬ code.IsOffsetByte position position := by
  rintro ⟨field, hfield, hcovers⟩
  have hlt := (source_lt_position hfield).2
  have hle := hcovers.1
  omega

/-- The words of a switch behind the default are no part of a distance, as far
as the cases go. -/
theorem not_isOffsetByte_of_switchFields {stride count i : Nat}
    (hfields : code.branchFieldsAt position = switchFields position stride count)
    (hlow : switchOperands position + 4 ≤ i) (hhigh : i < switchOperands position + 12) :
    ¬ code.IsOffsetByte position i := by
  rintro ⟨field, hfield, hcovers⟩
  rw [hfields] at hfield
  unfold BranchField.Covers at hcovers
  obtain rfl | ⟨k, -, rfl⟩ := mem_switchFields.mp hfield <;>
    simp only [BranchField.width, if_true] at hcovers <;> omega

/-! ## Instructions at another place -/

/-- At one place of some code stands the same instruction as at another place of
other code, except that branches may lead elsewhere. -/
structure SameInstruction (a b : Bytecode) (p q n : Nat) : Prop where
  /-- All bytes but those of the fields are the same. -/
  bytes : ∀ i < n, ¬ a.IsOffsetByte p (p + i) → b[q + i]? = a[p + i]?
  /-- A switch has the same alignment. -/
  aligned : a.IsSwitch p → q % 4 = p % 4

namespace SameInstruction

variable (same : SameInstruction a b p q n)
include same

/-- The opcode is the same. -/
theorem opcode (hn : 0 < n) : b[q]? = a[p]? := by
  have h := same.bytes 0 hn
  rw [Nat.add_zero, Nat.add_zero] at h
  exact h (not_isOffsetByte_self a p)

/-- The words of a switch behind the default are the same. -/
theorem switchWord {stride count i : Nat} (hswitch : a.IsSwitch p)
    (hfields : a.branchFieldsAt p = switchFields p stride count)
    (hi : 4 ≤ i) (hi' : i ≤ 8) (hn : switchOperands p + i + 4 ≤ p + n) :
    b.i32At? (switchOperands q + i) = a.i32At? (switchOperands p + i) := by
  have hlt := lt_switchOperands p
  refine i32At?_congr fun j hj => ?_
  have hbyte := same.bytes (switchOperands p - p + i + j) (by omega)
  have hp : p + (switchOperands p - p + i + j) = switchOperands p + i + j := by omega
  have hq : q + (switchOperands p - p + i + j) = switchOperands q + i + j := by
    rw [switchOperands_of_aligned (same.aligned hswitch)]
    omega
  rw [hp, hq] at hbyte
  exact hbyte (not_isOffsetByte_of_switchFields hfields (by omega) (by omega))

/-- The shape is the same, and the fields have moved along. -/
theorem shape_and_fields (shape : Shape a p n) :
    Shape b q n ∧ b.branchFieldsAt q = (a.branchFieldsAt p).map (·.moveTo q) := by
  have hlt := lt_switchOperands p
  cases shape with
  | @fixed op operands byte layout =>
    have byte' := (same.opcode (by omega)).trans byte
    refine ⟨.fixed byte' layout, ?_⟩
    rw [branchFieldsAt_of_fixed byte layout, branchFieldsAt_of_fixed byte' layout]
    split
    · simp [BranchField.moveTo]
    · split
      · simp [BranchField.moveTo]
      · rfl
  | tableSwitch byte hlow hhigh hcount =>
    have byte' := (same.opcode (by omega)).trans byte
    have hfields := branchFieldsAt_of_tableSwitch byte hlow hhigh
    have hlow' := (same.switchWord (i := 4) (.inl byte) hfields (by omega) (by omega)
      (by omega)).trans hlow
    have hhigh' := (same.switchWord (i := 8) (.inl byte) hfields (by omega) (by omega)
      (by omega)).trans hhigh
    have haligned := same.aligned (.inl byte)
    have hoperands : switchOperands p - p = switchOperands q - q := by
      rw [switchOperands_of_aligned haligned]
      omega
    refine ⟨hoperands ▸ .tableSwitch byte' hlow' hhigh' hcount, ?_⟩
    rw [hfields, branchFieldsAt_of_tableSwitch byte' hlow' hhigh',
      map_moveTo_switchFields haligned]
  | lookupSwitch byte hpairs hcount =>
    have byte' := (same.opcode (by omega)).trans byte
    have hfields := branchFieldsAt_of_lookupSwitch byte hpairs
    have hpairs' := (same.switchWord (i := 4) (.inr byte) hfields (by omega) (by omega)
      (by omega)).trans hpairs
    have haligned := same.aligned (.inr byte)
    have hoperands : switchOperands p - p = switchOperands q - q := by
      rw [switchOperands_of_aligned haligned]
      omega
    refine ⟨hoperands ▸ .lookupSwitch byte' hpairs' hcount, ?_⟩
    rw [hfields, branchFieldsAt_of_lookupSwitch byte' hpairs', map_moveTo_switchFields haligned]
  | @wide next byte hnext =>
    have hfields := branchFieldsAt_of_wide byte
    have hlength : 2 ≤ if next = Opcode.iinc then 6 else 4 := by split <;> omega
    have byte' := (same.opcode (by omega)).trans byte
    have hnext' : b[q + 1]? = some next := by
      refine (same.bytes 1 (by omega) ?_).trans hnext
      rintro ⟨field, hfield, -⟩
      rw [hfields] at hfield
      cases hfield
    refine ⟨.wide byte' hnext', ?_⟩
    rw [hfields, branchFieldsAt_of_wide byte']
    rfl

/-- The length is the same, if the instruction lies within the code. -/
theorem instructionLength (hl : a.instructionLength p = .ok n) (hsize : q + n ≤ b.size) :
    b.instructionLength q = .ok n :=
  instructionLength_eq_ok_iff.mpr
    ⟨(same.shape_and_fields (instructionLength_eq_ok_iff.mp hl).1).1, hsize⟩

end SameInstruction

end JvmClass.Bytecode
