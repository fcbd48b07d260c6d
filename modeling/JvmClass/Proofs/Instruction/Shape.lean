import JvmClass.Proofs.Edit
import JvmClass.Proofs.Instruction.Bytes

/-!
# Shapes of instructions

An instruction is complete if it has one of four shapes and lies within the
code: a fixed number of operand bytes, one of the two switches, or the longer
form of another instruction. The shape also tells which bytes of the
instruction hold the distances of branches. An instruction keeps its shape at
every place that agrees with it in the other bytes; a switch needs a place of
the same alignment as well.
-/

namespace JvmClass

/-! ## Opcodes -/

namespace Layout

/-- A fact about all bytes can be checked byte by byte. -/
theorem forall_opcode {P : UInt8 → Prop} (h : ∀ n < 256, P (UInt8.ofNat n)) (op : UInt8) :
    P op := by
  have hop := h op.toNat op.toNat_lt
  rwa [UInt8.ofNat_toNat] at hop

/-- The table switch is the only instruction of its layout. -/
theorem eq_tableSwitch_iff (op : UInt8) :
    ofOpcode op = .tableSwitch ↔ op = Opcode.tableSwitch := by
  revert op
  exact forall_opcode (by decide +kernel)

/-- The lookup switch is the only instruction of its layout. -/
theorem eq_lookupSwitch_iff (op : UInt8) :
    ofOpcode op = .lookupSwitch ↔ op = Opcode.lookupSwitch := by
  revert op
  exact forall_opcode (by decide +kernel)

/-- The prefix for longer forms is the only instruction of its layout. -/
theorem eq_wide_iff (op : UInt8) : ofOpcode op = .wide ↔ op = Opcode.wide := by
  revert op
  exact forall_opcode (by decide +kernel)

/-- A jump with a short distance has two operand bytes. -/
theorem of_isShortBranch {op : UInt8} (h : Opcode.isShortBranch op = true) :
    ofOpcode op = .fixed 2 := by
  revert h
  exact forall_opcode (P := fun op => Opcode.isShortBranch op = true → ofOpcode op = .fixed 2)
    (by decide +kernel) op

/-- A jump with a long distance has four operand bytes. -/
theorem of_isLongBranch {op : UInt8} (h : Opcode.isLongBranch op = true) :
    ofOpcode op = .fixed 4 := by
  revert h
  exact forall_opcode (P := fun op => Opcode.isLongBranch op = true → ofOpcode op = .fixed 4)
    (by decide +kernel) op

/-- An access to a field has two operand bytes. -/
theorem of_isFieldAccess {op : UInt8} (h : Opcode.isFieldAccess op = true) :
    ofOpcode op = .fixed 2 := by
  revert h
  exact forall_opcode (P := fun op => Opcode.isFieldAccess op = true → ofOpcode op = .fixed 2)
    (by decide +kernel) op

end Layout

namespace BranchField

/-- The number of bytes of a field. -/
def width (field : BranchField) : Nat := if field.isLong then 4 else 2

/-- Whether a byte of the code belongs to a field. -/
def Covers (field : BranchField) (i : Nat) : Prop :=
  field.position ≤ i ∧ i < field.position + field.width

/-- The field of the same instruction at another place. -/
def moveTo (field : BranchField) (source : Nat) : BranchField :=
  ⟨source, source + (field.position - field.source), field.isLong⟩

end BranchField

namespace Bytecode

/-- The branch fields of the instruction at a position. -/
def branchFieldsAt (code : Bytecode) (position : Nat) : List BranchField :=
  code.branchFields position (code[position]?.getD 0)

/-- Where the branch or switch at a position leads to: the target of a jump, or
the default of a switch and then its cases in order. -/
def branchTargets (code : Bytecode) (position : Nat) : List Int :=
  (code.branchFieldsAt position).map code.branchTarget

/-- Whether a byte of the instruction at a position is part of the distance to a
target. -/
def IsOffsetByte (code : Bytecode) (position i : Nat) : Prop :=
  ∃ field ∈ code.branchFieldsAt position, field.Covers i

/-- Whether the instruction at a position is a switch. -/
def IsSwitch (code : Bytecode) (position : Nat) : Prop :=
  code[position]? = some Opcode.tableSwitch ∨ code[position]? = some Opcode.lookupSwitch

instance (code : Bytecode) (position : Nat) : Decidable (code.IsSwitch position) :=
  inferInstanceAs (Decidable (_ ∨ _))

/-- The fields of a switch: one for the default, and one for each case behind
the first twelve operand bytes, at equal distances. -/
def switchFields (position stride count : Nat) : List BranchField :=
  ⟨position, switchOperands position, true⟩ ::
    (List.range count).map fun i =>
      ⟨position, switchOperands position + 12 + stride * i, true⟩

/-- What a complete instruction of some length looks like. -/
inductive Shape (code : Bytecode) (position : Nat) : Nat → Prop where
  /-- An opcode and a fixed number of bytes. -/
  | fixed {op : UInt8} {operands : Nat} (byte : code[position]? = some op)
      (layout : Layout.ofOpcode op = .fixed operands) : Shape code position (1 + operands)
  /-- A switch with bounds, and one case for each number between them. -/
  | tableSwitch {low high : Int} (byte : code[position]? = some Opcode.tableSwitch)
      (hlow : code.i32At? (switchOperands position + 4) = some low)
      (hhigh : code.i32At? (switchOperands position + 8) = some high)
      (hcount : 0 ≤ high - low + 1) :
      Shape code position (switchOperands position - position + 12 + 4 * (high - low + 1).toNat)
  /-- A switch with a number of pairs. -/
  | lookupSwitch {pairs : Int} (byte : code[position]? = some Opcode.lookupSwitch)
      (hpairs : code.i32At? (switchOperands position + 4) = some pairs) (hcount : 0 ≤ pairs) :
      Shape code position (switchOperands position - position + 8 + 8 * pairs.toNat)
  /-- The longer form of an instruction. -/
  | wide {next : UInt8} (byte : code[position]? = some Opcode.wide)
      (hnext : code[position + 1]? = some next) :
      Shape code position (if next = Opcode.iinc then 6 else 4)

variable {code a b : Bytecode} {position length p q n : Nat}

/-! ## Complete instructions -/

/-- An operand of a switch lies in the code. -/
theorem switchWord_eq_ok_iff {word : Int} :
    code.switchWord position = .ok word ↔ code.i32At? position = some word := by
  unfold switchWord
  split
  · next found hfound => simp [hfound]
  · next hnone => simp [hnone]

/-- An instruction of some shape claims the length of the shape. -/
theorem Shape.claimedLength (shape : Shape code position length) :
    ∃ op, code[position]? = some op ∧ code.claimedLength position op = .ok length := by
  cases shape with
  | fixed byte layout => exact ⟨_, byte, by unfold Bytecode.claimedLength; rw [layout]⟩
  | tableSwitch byte hlow hhigh hcount =>
    refine ⟨_, byte, ?_⟩
    unfold Bytecode.claimedLength
    rw [(Layout.eq_tableSwitch_iff _).mpr rfl]
    simp only [switchWord_eq_ok_iff.mpr hlow, switchWord_eq_ok_iff.mpr hhigh, bind, Except.bind]
    rw [if_neg (by omega)]
    rfl
  | lookupSwitch byte hpairs hcount =>
    refine ⟨_, byte, ?_⟩
    unfold Bytecode.claimedLength
    rw [(Layout.eq_lookupSwitch_iff _).mpr rfl]
    simp only [switchWord_eq_ok_iff.mpr hpairs, bind, Except.bind]
    rw [if_neg (by omega)]
    rfl
  | wide byte hnext =>
    refine ⟨_, byte, ?_⟩
    unfold Bytecode.claimedLength
    rw [(Layout.eq_wide_iff _).mpr rfl]
    simp only [hnext]

/-- An instruction that claims a length within the code has a shape. -/
theorem shape_of_claimedLength {op : UInt8} (byte : code[position]? = some op)
    (h : code.claimedLength position op = .ok length) (hsize : position + length ≤ code.size) :
    Shape code position length := by
  unfold Bytecode.claimedLength at h
  cases layout : Layout.ofOpcode op with
  | fixed operands =>
    rw [layout] at h
    cases h
    exact .fixed byte layout
  | tableSwitch =>
    rw [layout] at h
    rw [(Layout.eq_tableSwitch_iff op).mp layout] at byte
    obtain ⟨low, hlow, h⟩ := bind_eq_ok_iff.mp h
    obtain ⟨high, hhigh, h⟩ := bind_eq_ok_iff.mp h
    by_cases hcount : high - low + 1 < 0
    · rw [if_pos hcount] at h
      cases h
    · rw [if_neg hcount] at h
      cases h
      exact .tableSwitch byte (switchWord_eq_ok_iff.mp hlow) (switchWord_eq_ok_iff.mp hhigh)
        (by omega)
  | lookupSwitch =>
    rw [layout] at h
    rw [(Layout.eq_lookupSwitch_iff op).mp layout] at byte
    obtain ⟨pairs, hpairs, h⟩ := bind_eq_ok_iff.mp h
    by_cases hcount : pairs < 0
    · rw [if_pos hcount] at h
      cases h
    · rw [if_neg hcount] at h
      cases h
      exact .lookupSwitch byte (switchWord_eq_ok_iff.mp hpairs) (by omega)
  | wide =>
    rw [layout] at h
    rw [(Layout.eq_wide_iff op).mp layout] at byte
    cases hnext : code[position + 1]? with
    | none =>
      have hpast := Array.getElem?_eq_none_iff.mp hnext
      simp only [hnext] at h
      cases h
      omega
    | some next =>
      simp only [hnext] at h
      cases h
      exact .wide byte hnext
  | undefined =>
    rw [layout] at h
    cases h

/-- The instruction at a position is complete exactly if it has a shape and lies
within the code. -/
theorem instructionLength_eq_ok_iff :
    code.instructionLength position = .ok length ↔
      Shape code position length ∧ position + length ≤ code.size := by
  constructor
  · intro h
    have hsize := add_instructionLength_le h
    refine ⟨?_, hsize⟩
    unfold instructionLength at h
    cases byte : code[position]? with
    | none => simp [byte] at h
    | some op =>
      cases hclaimed : code.claimedLength position op with
      | error e => simp [byte, hclaimed] at h
      | ok claimed =>
        simp only [byte, hclaimed] at h
        split at h
        · cases h
          exact shape_of_claimedLength byte hclaimed hsize
        · cases h
  · rintro ⟨shape, hsize⟩
    obtain ⟨op, byte, hclaimed⟩ := shape.claimedLength
    unfold instructionLength
    simp only [byte, hclaimed, if_pos hsize]

end Bytecode

end JvmClass
